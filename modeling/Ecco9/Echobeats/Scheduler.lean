import Ecco9.Library.HeapQueue
import Ecco9.Library.Runs
import Ecco9.Library.Utf8

/-! The event queues of `org/ecco9-echobeats/echobeats/loop.go` and `core/echobeats/scheduler.go`. A
time is in nanoseconds from the zero time on, and an event is not touched while it is queued. -/

namespace Ecco9.Echobeats

open Ecco9.Library Ecco9.Library.Heaps

structure CognitiveEvent where
  id : Text
  priority : Int
  scheduledAt : Int
  deriving DecidableEq

/-- The scheduler, with all events it was given and all it has returned. -/
structure Scheduler where
  queue : Array CognitiveEvent := #[]
  processed : Nat := 0
  scheduled : Nat := 0
  given : List CognitiveEvent := []
  returned : List CognitiveEvent := []

inductive Call
  | schedule (e : CognitiveEvent) (newID : Text) (now : Int)
  | popDue (now : Int)

section

variable {α : Type} {given returned : List α} {h h' : Array α}

/-- What is given and then queued. -/
theorem queued_perm (perm : given.Perm (returned ++ h.toList)) (less : α → α → Bool) (e : α) :
    (given ++ [e]).Perm (returned ++ (push less h e).toList) := by
  have pushed := (push_perm less h e).toList
  rw [Array.toList_push] at pushed
  refine (perm.append_right [e]).trans ?_
  rw [List.append_assoc]
  exact pushed.symm.append_left returned

/-- What is returned and then queued no more. -/
theorem taken_perm {e : α} (perm : given.Perm (returned ++ h.toList))
    (popped : h.toList.Perm (e :: h'.toList)) : given.Perm (returned ++ [e] ++ h'.toList) := by
  rw [List.append_assoc]
  exact perm.trans (popped.append_left returned)

end

namespace Scheduler

/-- `Less` -/
abbrev less : CognitiveEvent → CognitiveEvent → Bool :=
  before CognitiveEvent.priority CognitiveEvent.scheduledAt

/-- `Schedule`, with the id and the time for an event that has none. -/
def schedule (s : Scheduler) (e : CognitiveEvent) (newID : Text) (now : Int) : Scheduler :=
  let e := { e with
    id := if e.id = [] then newID else e.id
    scheduledAt := if e.scheduledAt = 0 then now else e.scheduledAt }
  { s with queue := push less s.queue e, scheduled := s.scheduled + 1, given := s.given ++ [e] }

def popDue (s : Scheduler) (now : Int) : Scheduler × Option CognitiveEvent :=
  match Heaps.popDue CognitiveEvent.priority CognitiveEvent.scheduledAt s.queue now with
  | none => (s, none)
  | some (e, queue) =>
    ({ s with queue, processed := s.processed + 1, returned := s.returned ++ [e] }, some e)

def step (s : Scheduler) : Call → Option Scheduler
  | .schedule e newID now => some (s.schedule e newID now)
  | .popDue now => some (s.popDue now).1

/-- What is wanted of a call. -/
def Obeys (s : Scheduler) : Call → Prop
  | .schedule .. => True
  | .popDue now => Answers CognitiveEvent.priority CognitiveEvent.scheduledAt s.queue
    (s.popDue now).1.queue now (s.popDue now).2

/-- When something is due, nothing else is of a higher priority. -/
def Open (s : Scheduler) : Call → Prop
  | .schedule .. => True
  | .popDue now => Unblocked CognitiveEvent.priority CognitiveEvent.scheduledAt s.queue now

/-- Every event that was given is returned, once, or queued. -/
def Accounted (s : Scheduler) : Prop := s.given.Perm (s.returned ++ s.queue.toList)

/-! ### Runs -/

variable {s s' : Scheduler}

/-- Between the calls the queue is a heap. -/
def Heaped (s : Scheduler) : Prop := Heap less s.queue

theorem heaped_empty : ({} : Scheduler).Heaped := fun _ _ hlt => by simp at hlt

theorem heaped_schedule (h : s.Heaped) (e : CognitiveEvent) (newID : Text) (now : Int) :
    (s.schedule e newID now).Heaped :=
  push_heap (before_order _ _) h _ fun _ _ => trivial

theorem step_heaped (h : s.Heaped) {call : Call} (hstep : s.step call = some s') : s'.Heaped := by
  cases call with
  | schedule e newID now =>
    cases hstep
    exact heaped_schedule h e newID now
  | popDue now =>
    cases hstep
    unfold popDue
    split
    · exact h
    · rename_i hpop
      exact popDue_heap h hpop

theorem step_accounted (h : s.Accounted) {call : Call} (hstep : s.step call = some s') :
    s'.Accounted := by
  unfold Accounted at *
  cases call with
  | schedule e newID now =>
    cases hstep
    exact queued_perm h _ _
  | popDue now =>
    cases hstep
    unfold popDue
    split
    · exact h
    · rename_i hpop
      exact taken_perm h (popDue_perm hpop)

theorem obeys_iff (h : s.Heaped) (call : Call) : s.Obeys call ↔ s.Open call := by
  cases call with
  | schedule e newID now => exact Iff.rfl
  | popDue now =>
    rw [Open, ← answers_iff _ _ h now, Obeys, popDue]
    cases Heaps.popDue CognitiveEvent.priority CognitiveEvent.scheduledAt s.queue now <;> rfl

end Scheduler

namespace Core

structure CognitiveEvent where
  id : Text
  priority : Int
  timestamp : Int
  scheduledAt : Int
  recurring : Bool
  interval : Int
  deriving DecidableEq

/-- The scheduler, with the events that are handled, all that it was given and all that it has taken. -/
structure EchoBeats where
  eventQueue : Array CognitiveEvent := #[]
  eventsProcessed : Nat := 0
  eventsScheduled : Nat := 0
  handled : List CognitiveEvent := []
  given : List CognitiveEvent := []
  taken : List CognitiveEvent := []

/-- `processNextEvent` is two steps: its locked section, and what it does after `handleEvent`. -/
inductive Call
  | scheduleEvent (e : CognitiveEvent) (newID : Text) (now : Int)
  | take (now : Int)
  | finish (e : CognitiveEvent) (newID : Text) (now : Int)

namespace EchoBeats

/-- `Less` -/
abbrev less : CognitiveEvent → CognitiveEvent → Bool :=
  before CognitiveEvent.priority CognitiveEvent.scheduledAt

def scheduleEvent (eb : EchoBeats) (e : CognitiveEvent) (newID : Text) (now : Int) : EchoBeats :=
  let e := { e with
    timestamp := if e.timestamp = 0 then now else e.timestamp
    scheduledAt := if e.scheduledAt = 0 then now else e.scheduledAt
    id := if e.id = [] then newID else e.id }
  { eb with
    eventQueue := push less eb.eventQueue e
    eventsScheduled := eb.eventsScheduled + 1
    given := eb.given ++ [e] }

def take (eb : EchoBeats) (now : Int) : EchoBeats × Option CognitiveEvent :=
  match Heaps.popDue CognitiveEvent.priority CognitiveEvent.scheduledAt eb.eventQueue now with
  | none => (eb, none)
  | some (e, eventQueue) =>
    ({ eb with eventQueue, handled := e :: eb.handled, taken := eb.taken ++ [e] }, some e)

def finish (eb : EchoBeats) (e : CognitiveEvent) (newID : Text) (now : Int) : EchoBeats :=
  let eb := { eb with eventsProcessed := eb.eventsProcessed + 1, handled := eb.handled.erase e }
  if e.recurring ∧ e.interval > 0 then
    eb.scheduleEvent { e with scheduledAt := now + e.interval } newID now
  else eb

def step (eb : EchoBeats) : Call → Option EchoBeats
  | .scheduleEvent e newID now => some (eb.scheduleEvent e newID now)
  | .take now => some (eb.take now).1
  | .finish e newID now => if e ∈ eb.handled then some (eb.finish e newID now) else none

/-- What is wanted of a call. -/
def Obeys (eb : EchoBeats) : Call → Prop
  | .take now => Answers CognitiveEvent.priority CognitiveEvent.scheduledAt eb.eventQueue
    (eb.take now).1.eventQueue now (eb.take now).2
  | _ => True

/-- When something is due, nothing else is of a higher priority. -/
def Open (eb : EchoBeats) : Call → Prop
  | .take now => Unblocked CognitiveEvent.priority CognitiveEvent.scheduledAt eb.eventQueue now
  | _ => True

/-- Every event that was given is taken, once, or queued. -/
def Accounted (eb : EchoBeats) : Prop := eb.given.Perm (eb.taken ++ eb.eventQueue.toList)

/-! ### Runs -/

variable {eb eb' : EchoBeats}

/-- Between the calls the queue is a heap. -/
def Heaped (eb : EchoBeats) : Prop := Heap less eb.eventQueue

theorem heaped_empty : ({} : EchoBeats).Heaped := fun _ _ hlt => by simp at hlt

theorem heaped_scheduleEvent (h : eb.Heaped) (e : CognitiveEvent) (newID : Text) (now : Int) :
    (eb.scheduleEvent e newID now).Heaped :=
  push_heap (before_order _ _) h _ fun _ _ => trivial

theorem accounted_scheduleEvent (h : eb.Accounted) (e : CognitiveEvent) (newID : Text) (now : Int) :
    (eb.scheduleEvent e newID now).Accounted := queued_perm h _ _

theorem step_heaped (h : eb.Heaped) {call : Call} (hstep : eb.step call = some eb') : eb'.Heaped := by
  cases call with
  | scheduleEvent e newID now =>
    cases hstep
    exact heaped_scheduleEvent h e newID now
  | take now =>
    cases hstep
    unfold take
    split
    · exact h
    · rename_i hpop
      exact popDue_heap h hpop
  | finish e newID now =>
    rw [step] at hstep
    split at hstep <;> cases hstep
    unfold finish
    split
    · exact heaped_scheduleEvent h _ newID now
    · exact h

theorem step_accounted (h : eb.Accounted) {call : Call} (hstep : eb.step call = some eb') :
    eb'.Accounted := by
  cases call with
  | scheduleEvent e newID now =>
    cases hstep
    exact accounted_scheduleEvent h e newID now
  | take now =>
    cases hstep
    unfold take
    split
    · exact h
    · rename_i hpop
      exact taken_perm h (popDue_perm hpop)
  | finish e newID now =>
    rw [step] at hstep
    split at hstep <;> cases hstep
    unfold finish
    split
    · exact accounted_scheduleEvent h _ newID now
    · exact h

theorem obeys_iff (h : eb.Heaped) (call : Call) : eb.Obeys call ↔ eb.Open call := by
  cases call with
  | scheduleEvent e newID now => exact Iff.rfl
  | take now =>
    rw [Open, ← answers_iff _ _ h now, Obeys, take]
    cases Heaps.popDue CognitiveEvent.priority CognitiveEvent.scheduledAt eb.eventQueue now <;> rfl
  | finish e newID now => exact Iff.rfl

end EchoBeats

end Core

/-- In every run of either queue all calls do what is wanted of them just when none finds what is due
kept behind what is not, and nothing is lost or returned twice. -/
theorem runs_obey (calls : List Call) (coreCalls : List Core.Call) :
    (Throughout Scheduler.step Scheduler.Obeys {} calls ↔
        Throughout Scheduler.step Scheduler.Open {} calls) ∧
      (∀ s, calls.foldlM Scheduler.step {} = some s → s.Accounted) ∧
      (Throughout Core.EchoBeats.step Core.EchoBeats.Obeys {} coreCalls ↔
        Throughout Core.EchoBeats.step Core.EchoBeats.Open {} coreCalls) ∧
      ∀ eb, coreCalls.foldlM Core.EchoBeats.step {} = some eb → eb.Accounted := by
  refine ⟨?_, fun s run => ?_, ?_, fun eb run => ?_⟩
  · exact throughout_iff (I := Scheduler.Heaped) (fun s call h => Scheduler.obeys_iff h call)
      (fun s call s' h _ hstep => Scheduler.step_heaped h hstep) Scheduler.heaped_empty calls
  · exact foldlM_invariant (fun s s' call _ h hstep => Scheduler.step_accounted h hstep) run
      (List.Perm.refl _)
  · exact throughout_iff (I := Core.EchoBeats.Heaped) (fun eb call h => Core.EchoBeats.obeys_iff h call)
      (fun eb call eb' h _ hstep => Core.EchoBeats.step_heaped h hstep) Core.EchoBeats.heaped_empty
      coreCalls
  · exact foldlM_invariant (fun eb eb' call _ h hstep => Core.EchoBeats.step_accounted h hstep) run
      (List.Perm.refl _)

/-- An event for later and one that is due, of a lower priority. -/
def wake : CognitiveEvent := ⟨ascii "wake", 100, 1000⟩

def thought : CognitiveEvent := ⟨ascii "thought", 50, 5⟩

/-- What is due is not returned. -/
theorem thought_blocked : ¬Throughout Scheduler.step Scheduler.Obeys {}
    [.schedule wake [] 1, .schedule thought [] 1, .popDue 6] := by
  rintro ⟨-, h⟩
  obtain ⟨-, h⟩ := h _ rfl
  obtain ⟨obeys, -⟩ := h _ rfl
  have heaped := Scheduler.heaped_schedule (Scheduler.heaped_schedule Scheduler.heaped_empty wake [] 1)
    thought [] 1
  have hmem : ∀ d, d ∈ (({} : Scheduler).schedule wake [] 1 |>.schedule thought [] 1).queue ↔
      d = wake ∨ d = thought := fun d => by
    rw [Scheduler.schedule, (push_perm ..).mem_iff, Array.mem_push, Scheduler.schedule,
      (push_perm ..).mem_iff, Array.mem_push]
    simp [wake, thought, ascii]
  obtain ⟨e, he, is_due, highest⟩ := (Scheduler.obeys_iff heaped (.popDue 6)).mp obeys
    ⟨thought, (hmem thought).mpr (.inr rfl), by decide⟩
  have := highest wake ((hmem wake).mpr (.inl rfl))
  rcases (hmem e).mp he with rfl | rfl
  · exact absurd is_due (by decide)
  · exact absurd this (by decide)

end Ecco9.Echobeats
