import Ecco9.Library.Runs
import Ecco9.Library.Sorting
import Ecco9.Orchestration.Resources

/-! `IntelligentScheduler` of `orchestration/performance.go`: a queue that three policies sort one after the
other, and from which each agent takes its tasks. -/

namespace Ecco9.Orchestration

open Ecco9.Library

inductive SchedulingStatus
  | pending
  | scheduled
  | running
  | completed
  | failed
  deriving DecidableEq

structure ScheduledTask where
  /-- the number of the call that made it, for its address -/
  address : Nat
  taskType : Text
  agentID : Text
  priority : Int
  deadline : Int
  resourceRequirements : ResourceUsage
  status : SchedulingStatus := .pending
  deriving DecidableEq

def usageOf (cpuUsage memoryUsageGB networkUsageMbps : ℚ) (gpuUsage : ℚ := 0) : ResourceUsage :=
  { agentID := [], cpuUsage, memoryUsageGB, networkUsageMbps, gpuUsage }

def estimateResourceRequirements (taskType : Text) : ResourceUsage :=
  if taskType = ascii "generate" then usageOf (1 / 2) 2 10
  else if taskType = ascii "chat" then usageOf (2 / 5) (3 / 2) 15
  else if taskType = ascii "embed" then usageOf (4 / 5) 4 5 (3 / 10)
  else if taskType = ascii "tool" then usageOf (3 / 10) 1 20
  else if taskType = ascii "reflect" then usageOf (1 / 5) (1 / 2) 5
  else if taskType = ascii "plugin" then usageOf (3 / 5) 3 8
  else usageOf (2 / 5) (3 / 2) 10

namespace ScheduledTask

/-- `Deadline.Sub`, which stops at the ends of a duration. -/
def deadlineUrgency (t : ScheduledTask) (now : Int) : Int :=
  max (-2 ^ 63) (min (2 ^ 63 - 1) (t.deadline - now))

def resourceScore (t : ScheduledTask) : ℚ :=
  t.resourceRequirements.cpuUsage + t.resourceRequirements.memoryUsageGB / 10

/-- The task as it was handed in. -/
def submission (t : ScheduledTask) : ScheduledTask := { t with status := .pending }

end ScheduledTask

inductive SchedulingPolicy
  | priority
  | deadlineAware
  | resourceOptimized
  deriving DecidableEq

namespace SchedulingPolicy

/-- `Priority()` -/
def rank : SchedulingPolicy → Int
  | .priority => 100
  | .deadlineAware => 90
  | .resourceOptimized => 80

def scheduleTasks (S : SortFunc) (now : Int) (tasks : List ScheduledTask) :
    SchedulingPolicy → List ScheduledTask
  | .priority => S.slice (fun t u => t.priority > u.priority) tasks
  | .deadlineAware => S.slice (fun t u => t.deadlineUrgency now < u.deadlineUrgency now) tasks
  | .resourceOptimized => S.slice (fun t u => t.resourceScore < u.resourceScore) tasks

end SchedulingPolicy

/-- An order of the map of the policies. -/
def Iteration : Type :=
  { policies : List SchedulingPolicy // policies.Perm [.priority, .deadlineAware, .resourceOptimized] }

structure IntelligentScheduler where
  schedulingQueue : List ScheduledTask := []
  /-- where the next task is made -/
  next : Nat := 0

/-- The queue in the order of the policies. -/
def applyPolicies (S : SortFunc) (order : Iteration) (now : Int) (queue : List ScheduledTask) :
    List ScheduledTask :=
  (S.slice (fun p q => p.rank > q.rank) order.1).foldl
    (fun tasks policy => policy.scheduleTasks S now tasks) queue

/-- What the first ten that are pending become. -/
def markTop (queue : List ScheduledTask) : List ScheduledTask :=
  queue.mapIdx fun i task =>
    if i < 10 ∧ task.status = .pending then { task with status := .scheduled } else task

def optimizeSchedule (S : SortFunc) (order : Iteration) (now : Int) (queue : List ScheduledTask) :
    List ScheduledTask := markTop (applyPolicies S order now queue)

namespace IntelligentScheduler

def scheduleTask (S : SortFunc) (is : IntelligentScheduler) (taskType agentID : Text)
    (priority deadline : Int) (order : Iteration) (now : Int) :
    ScheduledTask × IntelligentScheduler :=
  let scheduledTask : ScheduledTask :=
    { address := is.next, taskType, agentID, priority, deadline,
      resourceRequirements := estimateResourceRequirements taskType }
  (scheduledTask,
    ⟨optimizeSchedule S order now (is.schedulingQueue ++ [scheduledTask]), is.next + 1⟩)

/-- What an agent can be given. -/
def eligible (agentID : Text) (t : ScheduledTask) : Bool := t.agentID = agentID ∧ t.status = .scheduled

def getNextTask (is : IntelligentScheduler) (agentID : Text) :
    Except Text (ScheduledTask × IntelligentScheduler) :=
  match is.schedulingQueue.find? (eligible agentID) with
  | none => .error (ascii "no tasks available for agent " ++ agentID)
  | some scheduledTask => .ok ({ scheduledTask with status := .running },
      { is with schedulingQueue := is.schedulingQueue.eraseP (eligible agentID) })

end IntelligentScheduler

/-! ### Runs -/

inductive Request
  | scheduleTask (taskType agentID : Text) (priority deadline : Int) (order : Iteration) (now : Int)
  | getNextTask (agentID : Text)

/-- The scheduler, with what was handed in, and what was given to whom. -/
structure Desk where
  scheduler : IntelligentScheduler := {}
  submitted : List ScheduledTask := []
  returned : List (Text × ScheduledTask) := []

namespace Desk

def request (S : SortFunc) (d : Desk) : Request → Desk
  | .scheduleTask taskType agentID priority deadline order now =>
    let (task, scheduler) := d.scheduler.scheduleTask S taskType agentID priority deadline order now
    { d with scheduler, submitted := d.submitted ++ [task] }
  | .getNextTask agentID =>
    match d.scheduler.getNextTask agentID with
    | .error _ => d
    | .ok (task, scheduler) => { d with scheduler, returned := d.returned ++ [(agentID, task)] }

/-- What was handed in and not yet given to an agent. -/
def waiting (d : Desk) : List ScheduledTask :=
  d.submitted.filter fun t => t.address ∉ d.returned.map fun r => r.2.address

/-- Every task was given at most once, and to its own agent. -/
structure Handed (d : Desk) : Prop where
  once : (d.returned.map fun r => r.2.address).Nodup
  own : ∀ r ∈ d.returned, r.2.submission ∈ d.submitted ∧ r.2.agentID = r.1

/-- A task of the highest priority is given, if any is waiting. -/
def Fair (d : Desk) : Request → Prop
  | .scheduleTask .. => True
  | .getNextTask agentID =>
    match d.scheduler.getNextTask agentID with
    | .error _ => ∀ t ∈ d.waiting, t.agentID ≠ agentID
    | .ok (task, _) => ∀ t ∈ d.waiting, t.agentID = agentID → t.priority ≤ task.priority

/-- If anything is queued for the agent, something was among the first ten at a call since it was handed
in, and of what was, all with the least score have the highest priority. -/
def Served (d : Desk) : Request → Prop
  | .scheduleTask .. => True
  | .getNextTask agentID =>
    ∀ t ∈ d.scheduler.schedulingQueue, t.agentID = agentID →
      (∃ u ∈ d.scheduler.schedulingQueue, IntelligentScheduler.eligible agentID u) ∧
      ∀ u ∈ d.scheduler.schedulingQueue, IntelligentScheduler.eligible agentID u →
        (∀ v ∈ d.scheduler.schedulingQueue, IntelligentScheduler.eligible agentID v →
          u.resourceScore ≤ v.resourceScore) → t.priority ≤ u.priority

end Desk

/-! ### The order of the queue -/

section

variable (S : SortFunc) (order : Iteration) (now : Int) (queue : List ScheduledTask)

/-- Whatever the order of the map, the least resources are sorted by last. -/
theorem policies_sorted : S.slice (fun p q => p.rank > q.rank) order.1 =
    [.priority, .deadlineAware, .resourceOptimized] := by
  have perm := (S.slice_perm (fun p q => p.rank > q.rank) order.1).trans order.2
  have ordered : (S.slice (fun p q => p.rank > q.rank) order.1).Pairwise
      fun p q => decide (q.rank > p.rank) = false := by
    refine S.slice_ordered (fun p _ q _ h => ?_) (fun p _ q _ r _ h => ?_)
    · simp only [decide_eq_true_eq, decide_eq_false_iff_not] at h ⊢
      omega
    · simp only [decide_eq_true_eq] at h ⊢
      omega
  refine perm.eq_of_pairwise (fun p q _ _ hpq hqp => ?_) ordered (by decide)
  cases p <;> cases q <;> simp_all [SchedulingPolicy.rank]

theorem scheduleTasks_perm (policy : SchedulingPolicy) :
    (policy.scheduleTasks S now queue).Perm queue := by
  cases policy <;> exact S.slice_perm _ _

theorem applyPolicies_eq : applyPolicies S order now queue =
    SchedulingPolicy.resourceOptimized.scheduleTasks S now
      (SchedulingPolicy.deadlineAware.scheduleTasks S now
        (SchedulingPolicy.priority.scheduleTasks S now queue)) := by
  rw [applyPolicies, policies_sorted]
  rfl

theorem applyPolicies_perm : (applyPolicies S order now queue).Perm queue := by
  rw [applyPolicies_eq]
  exact (scheduleTasks_perm S now _ _).trans
    ((scheduleTasks_perm S now _ _).trans (scheduleTasks_perm S now _ _))

theorem applyPolicies_ordered :
    ((applyPolicies S order now queue).map ScheduledTask.resourceScore).Pairwise (· ≤ ·) := by
  rw [applyPolicies_eq, List.pairwise_map]
  refine (S.slice_ordered (fun t _ u _ h => ?_) (fun t _ u _ v _ h => ?_)).imp fun h => ?_
  · simp only [decide_eq_true_eq, decide_eq_false_iff_not, not_lt] at h ⊢
    exact h.le
  · simp only [decide_eq_true_eq] at h ⊢
    rcases lt_or_ge u.resourceScore t.resourceScore with hut | htu
    · exact .inl hut
    · exact .inr (h.trans_le htu)
  · simpa using h

/-- Marking changes nothing that does not read the status. -/
theorem map_markTop {α : Type} {f : ScheduledTask → α}
    (h : ∀ t status, f { t with status } = f t) : (markTop queue).map f = queue.map f := by
  rw [markTop, List.mapIdx_eq_zipIdx_map, List.map_map]
  refine (List.map_congr_left fun p _ => ?_).trans
    ((List.map_map (f := Prod.fst) (g := f) (l := queue.zipIdx)).symm.trans ?_)
  · dsimp only [Function.comp]
    split_ifs
    · exact h _ _
    · rfl
  · rw [List.zipIdx_map_fst]

end

/-! ### What a call does -/

namespace IntelligentScheduler

variable {is is' : IntelligentScheduler} {agentID : Text} {task : ScheduledTask}

/-- What is given is the first in the queue that the agent can be given, and it leaves the queue. -/
theorem getNextTask_ok (h : is.getNextTask agentID = .ok (task, is')) :
    ∃ before t after, is.schedulingQueue = before ++ t :: after ∧ eligible agentID t = true ∧
      (∀ u ∈ before, eligible agentID u = false) ∧ task = { t with status := .running } ∧
      is' = { is with schedulingQueue := before ++ after } := by
  rw [getNextTask] at h
  cases hfind : is.schedulingQueue.find? (eligible agentID) with
  | none => simp [hfind] at h
  | some t =>
    rw [hfind] at h
    obtain ⟨ht, before, after, hqueue, hbefore⟩ := List.find?_eq_some_iff_append.mp hfind
    have hnot : ∀ u ∈ before, ¬eligible agentID u = true := fun u hu => by simpa using hbefore u hu
    cases h
    refine ⟨before, t, after, hqueue, ht, fun u hu => by simpa using hnot u hu, rfl, ?_⟩
    rw [hqueue, List.eraseP_append_right _ hnot, List.eraseP_cons_of_pos ht]

theorem getNextTask_first {before after : List ScheduledTask}
    (hqueue : is.schedulingQueue = before ++ task :: after) (htask : eligible agentID task = true)
    (hbefore : ∀ u ∈ before, eligible agentID u = false) :
    ∃ is', is.getNextTask agentID = .ok ({ task with status := .running }, is') := by
  have hfind : is.schedulingQueue.find? (eligible agentID) = some task :=
    List.find?_eq_some_iff_append.mpr ⟨htask, before, after, hqueue, fun u hu => by simp [hbefore u hu]⟩
  rw [getNextTask, hfind]
  exact ⟨_, rfl⟩

theorem getNextTask_error {e : Text} (h : is.getNextTask agentID = .error e) :
    ∀ t ∈ is.schedulingQueue, eligible agentID t = false := by
  rw [getNextTask] at h
  cases hfind : is.schedulingQueue.find? (eligible agentID) with
  | none => simpa using hfind
  | some t => simp [hfind] at h

end IntelligentScheduler

namespace Desk

variable {S : SortFunc} {d : Desk}

/-- What holds of every run: the queue has what is waiting, in the order of the resources. -/
structure Sound (d : Desk) : Prop where
  fresh : ∀ t ∈ d.submitted, t.address < d.scheduler.next
  distinct : (d.submitted.map ScheduledTask.address).Nodup
  queued : (d.scheduler.schedulingQueue.map ScheduledTask.submission).Perm d.waiting
  ordered : (d.scheduler.schedulingQueue.map ScheduledTask.resourceScore).Pairwise (· ≤ ·)

theorem sound_empty : Sound {} := ⟨nofun, List.nodup_nil, .refl _, .nil⟩

theorem handed_empty : Handed {} := ⟨List.nodup_nil, nofun⟩

theorem mem_waiting {t : ScheduledTask} :
    t ∈ d.waiting ↔ t ∈ d.submitted ∧ ∀ r ∈ d.returned, r.2.address ≠ t.address := by
  simp [waiting]

theorem Sound.mem_waiting (h : d.Sound) {t : ScheduledTask} :
    t ∈ d.waiting ↔ ∃ u ∈ d.scheduler.schedulingQueue, u.submission = t := by
  rw [← h.queued.mem_iff, List.mem_map]

theorem Sound.scheduleTask (h : d.Sound) (handed : d.Handed) {taskType agentID : Text}
    {priority deadline : Int} {order : Iteration} {now : Int} :
    (d.request S (.scheduleTask taskType agentID priority deadline order now)).Sound := by
  have hreturned : ∀ r ∈ d.returned, r.2.address ≠ d.scheduler.next := fun r hr =>
    (h.fresh _ (handed.own r hr).1).ne
  refine ⟨fun t ht => ?_, ?_, ?_, ?_⟩
  · rcases List.mem_append.mp ht with ht | ht
    · exact (h.fresh t ht).trans (Nat.lt_succ_self _)
    · rw [List.mem_singleton.mp ht]
      exact Nat.lt_succ_self _
  · refine (List.map_append ▸ List.nodup_append.mpr ⟨h.distinct, List.nodup_singleton _, ?_⟩)
    intro x hx y hy
    obtain ⟨t, ht, rfl⟩ := List.mem_map.mp hx
    rw [List.mem_singleton.mp hy]
    exact (h.fresh t ht).ne
  · refine (List.Perm.of_eq (map_markTop _ fun _ _ => rfl)).trans
      (((applyPolicies_perm S order now _).map _).trans ?_)
    rw [List.map_append]
    refine (h.queued.append_right _).trans (List.Perm.of_eq ?_)
    refine ((List.filter_append ..).trans (congrArg (d.waiting ++ ·) ?_)).symm
    refine List.filter_eq_self.mpr fun t ht => ?_
    rw [List.mem_singleton.mp ht]
    simpa using hreturned
  · refine (congrArg (List.Pairwise _) (map_markTop _ fun _ _ => rfl)).mpr ?_
    exact applyPolicies_ordered S order now _

theorem Sound.getNextTask (h : d.Sound) (handed : d.Handed) {agentID : Text} :
    (d.request S (.getNextTask agentID)).Sound ∧ (d.request S (.getNextTask agentID)).Handed := by
  rw [Desk.request]
  cases hnext : d.scheduler.getNextTask agentID with
  | error e => exact ⟨h, handed⟩
  | ok result =>
    obtain ⟨task, scheduler⟩ := result
    obtain ⟨before, t, after, hqueue, ht, -, rfl, rfl⟩ := IntelligentScheduler.getNextTask_ok hnext
    have hagent : t.agentID = agentID := by
      simp only [IntelligentScheduler.eligible, decide_eq_true_eq] at ht
      exact ht.1
    obtain ⟨hsubmitted, hreturned⟩ := Desk.mem_waiting.mp (h.mem_waiting.mpr
      ⟨t, hqueue ▸ List.mem_append_right _ List.mem_cons_self, rfl⟩)
    have distinct : (d.scheduler.schedulingQueue.map ScheduledTask.address).Nodup := by
      have := (h.queued.map ScheduledTask.address).nodup_iff.mpr
        (h.distinct.sublist (List.filter_sublist.map _))
      rwa [List.map_map] at this
    rw [hqueue, List.map_append, List.map_cons] at distinct
    have hrest := (List.nodup_cons.mp (List.nodup_middle.mp distinct)).1
    rw [← List.map_append] at hrest
    refine ⟨⟨h.fresh, h.distinct, ?_, ?_⟩, ⟨?_, fun r hr => ?_⟩⟩
    · -- of what was waiting, the task is all that has its address
      have hwaiting : waiting ⟨{ d.scheduler with schedulingQueue := before ++ after }, d.submitted,
          d.returned ++ [(agentID, { t with status := .running })]⟩ =
          d.waiting.filter fun u => u.address ≠ t.address := by
        rw [waiting, waiting, List.filter_filter]
        refine List.filter_congr fun u _ => ?_
        rw [Bool.eq_iff_iff]
        simp only [List.map_append, List.map_singleton, List.mem_append, List.mem_singleton, not_or,
          decide_eq_true_eq, Bool.and_eq_true]
        exact and_comm
      rw [hwaiting]
      refine List.Perm.trans (List.Perm.of_eq ?_) (h.queued.filter _)
      have hkept : ∀ u ∈ before ++ after, u.address ≠ t.address := fun u hu heq =>
        hrest (heq ▸ List.mem_map_of_mem hu)
      rw [List.filter_map, hqueue, List.filter_append, List.filter_cons_of_neg (by simp [
        ScheduledTask.submission]), ← List.filter_append]
      exact congrArg _ (List.filter_eq_self.mpr fun u hu => decide_eq_true (hkept u hu)).symm
    · refine h.ordered.sublist (List.Sublist.map _ ?_)
      rw [hqueue]
      exact (List.Sublist.refl before).append (List.sublist_cons_self t after)
    · rw [List.map_append, List.nodup_append]
      refine ⟨handed.once, List.nodup_singleton _, fun x hx y hy => ?_⟩
      obtain ⟨r, hr, rfl⟩ := List.mem_map.mp hx
      rw [List.mem_singleton.mp hy]
      exact hreturned r hr
    · rcases List.mem_append.mp hr with hr | hr
      · exact handed.own r hr
      · rw [List.mem_singleton.mp hr]
        exact ⟨hsubmitted, hagent⟩

theorem Sound.request (h : d.Sound ∧ d.Handed) (r : Request) :
    (d.request S r).Sound ∧ (d.request S r).Handed := by
  cases r with
  | scheduleTask =>
    exact ⟨h.1.scheduleTask h.2, h.2.once, fun r hr =>
      ⟨List.mem_append_left _ (h.2.own r hr).1, (h.2.own r hr).2⟩⟩
  | getNextTask => exact h.1.getNextTask h.2

/-- The first that the agent can be given has the least score of them. -/
theorem Sound.fair (h : d.Sound) {r : Request} (served : d.Served r) : d.Fair r := by
  cases r with
  | scheduleTask => trivial
  | getNextTask agentID =>
    rw [Fair]
    cases hnext : d.scheduler.getNextTask agentID with
    | error e =>
      intro t ht hagent
      obtain ⟨t, hmem, rfl⟩ := h.mem_waiting.mp ht
      obtain ⟨u, hu, heligible⟩ := (served t hmem hagent).1
      rw [IntelligentScheduler.getNextTask_error hnext u hu] at heligible
      cases heligible
    | ok result =>
      intro t ht hagent
      obtain ⟨task, scheduler⟩ := result
      obtain ⟨before, u, after, hqueue, hu, hbefore, rfl, -⟩ := IntelligentScheduler.getNextTask_ok hnext
      obtain ⟨t, hmem, rfl⟩ := h.mem_waiting.mp ht
      have hmem' : u ∈ d.scheduler.schedulingQueue := hqueue ▸ List.mem_append_right _ List.mem_cons_self
      refine (served t hmem hagent).2 u hmem' hu fun v hv heligible => ?_
      have hordered := h.ordered
      rw [hqueue] at hv
      rw [hqueue, List.map_append, List.map_cons, List.pairwise_append, List.pairwise_cons] at hordered
      rcases List.mem_append.mp hv with hv | hv
      · rw [hbefore v hv] at heligible
        cases heligible
      · rcases List.mem_cons.mp hv with rfl | hv
        · exact le_refl _
        · exact hordered.2.1.1 _ (List.mem_map_of_mem hv)

/-- The scheduler with the queue in another order. -/
def reorder (d : Desk) (schedulingQueue : List ScheduledTask) : Desk :=
  { d with scheduler := { d.scheduler with schedulingQueue } }

theorem Sound.reorder (h : d.Sound) {queue : List ScheduledTask}
    (perm : queue.Perm d.scheduler.schedulingQueue)
    (ordered : (queue.map ScheduledTask.resourceScore).Pairwise (· ≤ ·)) : (d.reorder queue).Sound :=
  ⟨h.fresh, h.distinct, (perm.map _).trans h.queued, ordered⟩

/-- What is fair in whatever order the sort leaves what has one score, is served. -/
theorem Sound.served_iff (h : d.Sound) {r : Request} : d.Served r ↔
    ∀ queue : List ScheduledTask, queue.Perm d.scheduler.schedulingQueue →
      (queue.map ScheduledTask.resourceScore).Pairwise (· ≤ ·) → (d.reorder queue).Fair r := by
  cases r with
  | scheduleTask => exact ⟨fun _ _ _ _ => trivial, fun _ => trivial⟩
  | getNextTask agentID =>
    refine ⟨fun served queue perm ordered => (h.reorder perm ordered).fair ?_,
      fun fair t ht hagent => ⟨?_, fun u hu heligible hleast => ?_⟩⟩
    · intro t ht hagent
      obtain ⟨⟨u, hu, heligible⟩, hhighest⟩ := served t (perm.subset ht) hagent
      exact ⟨⟨u, perm.symm.subset hu, heligible⟩, fun v hv hve hleast =>
        hhighest v (perm.subset hv) hve fun w hw => hleast w (perm.symm.subset hw)⟩
    · by_contra hnone
      have := fair _ (.refl _) h.ordered
      rw [Fair] at this
      cases hnext : (d.reorder d.scheduler.schedulingQueue).scheduler.getNextTask agentID with
      | error e =>
        rw [hnext] at this
        exact this t.submission (h.mem_waiting.mpr ⟨t, ht, rfl⟩) hagent
      | ok result =>
        obtain ⟨before, u, after, hqueue, hu, -, -, -⟩ := IntelligentScheduler.getNextTask_ok hnext
        exact hnone ⟨u, by simpa [Desk.reorder] using hqueue ▸ List.mem_append_right _ List.mem_cons_self, hu⟩
    · -- in the order that has `u` before all of its score, it is the first that the agent can be given
      obtain ⟨before, after, perm, ordered, hbefore⟩ := exists_ordered_first ScheduledTask.resourceScore hu
      have hqueue : (d.reorder (before ++ u :: after)).scheduler.schedulingQueue =
          before ++ u :: after := rfl
      obtain ⟨is', hnext⟩ := IntelligentScheduler.getNextTask_first hqueue heligible fun v hv => by
        by_contra hve
        exact absurd (hleast v (perm.subset (List.mem_append_left _ hv)) (by simpa using hve))
          (not_le.mpr (hbefore v hv))
      have := fair _ perm ordered
      rw [Fair, hnext] at this
      exact this t.submission (h.mem_waiting.mpr ⟨t, ht, rfl⟩) hagent

/-- In a run in which every agent that asks is served, every task is given at most once and to its own
agent, and one of the highest priority first. -/
theorem run_fair (S : SortFunc) (requests : List Request) (served : Along (request S) Served {} requests) :
    (∀ n, ((requests.take n).foldl (request S) {}).Handed) ∧ Along (request S) Fair {} requests := by
  have empty : Sound {} ∧ Handed {} := ⟨sound_empty, handed_empty⟩
  constructor
  · intro n
    have := List.foldlRecOn (motive := fun d => d.Sound ∧ d.Handed) (requests.take n) (request S) empty
      fun _ h r _ => Sound.request h r
    exact this.2
  · exact served.imp (fun _ r h => Sound.request h r) (fun _ _ h => h.1.fair) empty

def anyOrder : Iteration := ⟨_, .refl _⟩

def low : Request := .scheduleTask (ascii "reflect") (ascii "agent") 0 0 anyOrder 0

def urgent : Request := .scheduleTask (ascii "embed") (ascii "agent") 3 0 anyOrder 0

theorem run_fair_one :
    (∀ n, (([urgent, .getNextTask (ascii "agent")].take n).foldl (request insertionSort) {}).Handed) ∧
      Along (request insertionSort) Fair {} [urgent, .getNextTask (ascii "agent")] :=
  run_fair insertionSort _ ⟨trivial, by rw [Served]; decide +kernel, trivial⟩

def both : Desk := [low, urgent].foldl (request insertionSort) {}

theorem both_served_iff : both.Served (.getNextTask (ascii "agent")) ↔
    ∀ queue : List ScheduledTask, queue.Perm both.scheduler.schedulingQueue →
      (queue.map ScheduledTask.resourceScore).Pairwise (· ≤ ·) →
        (both.reorder queue).Fair (.getNextTask (ascii "agent")) :=
  (Sound.request (Sound.request ⟨sound_empty, handed_empty⟩ low) urgent).1.served_iff

/-- The lighter task goes first, though it is the less urgent. -/
theorem lighter_not_fair : ¬∀ (S : SortFunc) (requests : List Request),
    (∀ n, ((requests.take n).foldl (request S) {}).Handed) ∧ Along (request S) Fair {} requests := by
  intro h
  have fair : both.Fair (.getNextTask (ascii "agent")) :=
    (h insertionSort [low, urgent, .getNextTask (ascii "agent")]).2.2.2.1
  have given : (both.scheduler.getNextTask (ascii "agent")).toOption.map (·.1.priority) = some 0 := by
    decide +kernel
  have hwaiting : ∃ t ∈ both.waiting, t.agentID = ascii "agent" ∧ t.priority = 3 := by decide +kernel
  obtain ⟨t, ht, hagent, hpriority⟩ := hwaiting
  rw [Fair] at fair
  cases hnext : both.scheduler.getNextTask (ascii "agent") with
  | error e =>
    rw [hnext] at given
    cases given
  | ok result =>
    rw [hnext] at given fair
    have hgiven : result.1.priority = 0 := Option.some.inj given
    have := fair t ht hagent
    omega

end Desk

end Ecco9.Orchestration
