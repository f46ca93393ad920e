import Ecco9.Library.Runs
import Ecco9.Sched.Steps

/-! Which runners are loaded, and whose llama servers are open; the runners that events, timers and
goroutines refer to were created. -/

namespace Ecco9.Sched

section

open Ecco9.Library

/-! ### Runners after a step -/

theorem Scheduler.runner_setRunner (s : Scheduler) (r : Nat) (f : RunnerRef → RunnerRef) (k : Nat) :
    (s.setRunner r f).runner k = if k = r then f (s.runner k) else s.runner k := rfl

@[simp] theorem Scheduler.loaded_setRunner (s : Scheduler) (r : Nat) (f : RunnerRef → RunnerRef) :
    (s.setRunner r f).loaded = s.loaded := rfl

theorem Scheduler.expireNow_cases (s : Scheduler) (r : Nat) :
    s.expireNow r = s.setRunner r (fun x => { x.stopTimer with sessionDuration := 0 }) ∨
      s.expireNow r =
        (s.setRunner r fun x => { x.stopTimer with sessionDuration := 0 }).sendExpired r := by
  unfold expireNow
  dsimp only
  split
  · exact .inr rfl
  · exact .inl rfl

theorem Scheduler.pending_expireNow (s : Scheduler) (r : Nat) :
    (s.expireNow r).pending = s.pending := by
  rcases s.expireNow_cases r with h | h <;> rw [h] <;> rfl

theorem Scheduler.completed_expireNow (s : Scheduler) (r : Nat) :
    (s.expireNow r).completed = s.completed := by
  rcases s.expireNow_cases r with h | h <;> rw [h] <;> rfl

/-- An update that keeps a field of the runner keeps it of all runners. -/
theorem Scheduler.setRunner_field {α : Type} (g : RunnerRef → α) (s : Scheduler) (r : Nat)
    {f : RunnerRef → RunnerRef} (h : ∀ x, g (f x) = g x) (k : Nat) :
    g ((s.setRunner r f).runner k) = g (s.runner k) := by
  rw [runner_setRunner]
  split
  · exact h _
  · rfl

theorem Scheduler.loadedFor_congr {s s' : Scheduler} (hloaded : s'.loaded = s.loaded)
    (hpath : ∀ r, (s'.runner r).modelPath = (s.runner r).modelPath) (path : Text) :
    s'.loadedFor path = s.loadedFor path := by
  unfold loadedFor
  rw [hloaded]
  congr 1
  funext r
  rw [hpath]

theorem Scheduler.loadedFor_some {s : Scheduler} {path : Text} {r : Nat}
    (h : s.loadedFor path = some r) : r ∈ s.loaded ∧ (s.runner r).modelPath = path :=
  ⟨List.mem_of_find?_eq_some h, by simpa using List.find?_some h⟩

theorem Scheduler.loadedFor_none {s : Scheduler} {path : Text} (h : s.loadedFor path = none) :
    ∀ r ∈ s.loaded, (s.runner r).modelPath ≠ path := by
  intro r hr
  simpa using List.find?_eq_none.mp h r hr

/-! ### What a step does to the population -/

/-- The path of which no runner is loaded, when a model of it is about to be. -/
def Pending.absent : Pending → Option Text
  | fitting q _ => some q.modelPath
  | starting q => some q.modelPath
  | _ => none

/-- Neither what is loaded nor what is open changes. -/
structure Same (s s' : Scheduler) : Prop where
  loaded : s'.loaded = s.loaded
  created : s'.created = s.created
  path : ∀ r, (s'.runner r).modelPath = (s.runner r).modelPath
  llama : ∀ r, (s'.runner r).llama = (s.runner r).llama
  maxRunners : 0 < s.maxRunners → s'.maxRunners = s.maxRunners
  /-- a model is about to be loaded only if there is room -/
  absent : ∀ path, s'.pending.absent = some path → s.pending.absent = some path ∨
    s.loadedFor path = none ∧ ¬(s.maxRunners > 0 ∧ s.loaded.length ≥ s.maxRunners)

theorem Same.of_pending {s s' : Scheduler} (hloaded : s'.loaded = s.loaded)
    (hcreated : s'.created = s.created) (hmax : s'.maxRunners = s.maxRunners)
    (hpath : ∀ r, (s'.runner r).modelPath = (s.runner r).modelPath)
    (hllama : ∀ r, (s'.runner r).llama = (s.runner r).llama)
    (hpending : s'.pending.absent = none ∨ s'.pending = s.pending) : Same s s' := by
  refine ⟨hloaded, hcreated, hpath, hllama, fun _ => hmax, ?_⟩
  intro path h
  rcases hpending with hnone | heq
  · rw [hnone] at h
    cases h
  · rw [heq] at h
    exact .inl h

/-- The llama server of `r` is closed. -/
structure Closes (s s' : Scheduler) (r : Nat) : Prop where
  created : s'.created = s.created
  maxRunners : s'.maxRunners = s.maxRunners
  pending : s'.pending = s.pending
  path : ∀ k, (s'.runner k).modelPath = (s.runner k).modelPath
  llama : ∀ k, (s'.runner k).llama = if k = r then false else (s.runner k).llama

inductive Effect (pid : Nat → Int) (e : Event) (s s' : Scheduler) : Prop
  | same : Same s s' → Effect pid e s s'
  | load (q : LlmRequest) : s.pending = .starting q →
      (s.loadedFor q.modelPath = none → s' = s.insert q) → Effect pid e s s'
  | orphan (r k : Nat) : s.loadedFor (s.runner r).modelPath = some k → pid r ≠ pid k →
      s'.loaded = s.loaded → Closes s s' r → Effect pid e s s'
  | unload (r k : Nat) : e = .unloadExpired → s.completed = .expired r →
      s.loadedFor (s.runner r).modelPath = some k → pid r = pid k →
      s'.loaded = s.loaded.filter (fun k => (s.runner k).modelPath ≠ (s.runner r).modelPath) →
      Closes s s' r → Effect pid e s s'

theorem Scheduler.closes_unload (s : Scheduler) (r : Nat) :
    Closes s (s.setRunner r RunnerRef.unload) r := by
  refine ⟨rfl, rfl, rfl, s.setRunner_field (f := RunnerRef.unload) (·.modelPath) r fun _ => rfl, ?_⟩
  intro k
  rw [runner_setRunner]
  split
  · rfl
  · rfl

/-- What is left of a step that changes one runner, but neither its path nor its llama server. -/
theorem Same.setRunner {s : Scheduler} (r : Nat) {f : RunnerRef → RunnerRef}
    (hpath : ∀ x, (f x).modelPath = x.modelPath) (hllama : ∀ x, (f x).llama = x.llama) :
    Same s (s.setRunner r f) :=
  .of_pending rfl rfl rfl (s.setRunner_field (·.modelPath) r hpath)
    (s.setRunner_field (·.llama) r hllama) (.inr rfl)

theorem Same.expireNow (s : Scheduler) (r : Nat) : Same s (s.expireNow r) := by
  have same : Same s (s.setRunner r fun x => { x.stopTimer with sessionDuration := 0 }) :=
    .setRunner r (fun _ => rfl) (fun _ => rfl)
  rcases s.expireNow_cases r with h | h
  · rw [h]
    exact same
  · rw [h]
    exact ⟨same.loaded, same.created, same.path, same.llama, same.maxRunners, same.absent⟩

/-- A step that besides changes where `processPending` is, and what waits in channels. -/
theorem Same.congr {s s₁ s' : Scheduler} (same : Same s s₁) (hloaded : s'.loaded = s₁.loaded)
    (hcreated : s'.created = s₁.created) (hmax : s'.maxRunners = s₁.maxRunners)
    (hrunner : s'.runner = s₁.runner)
    (hpending : s'.pending.absent = none ∨ s'.pending = s₁.pending) : Same s s' := by
  refine ⟨hloaded.trans same.loaded, hcreated.trans same.created, ?_, ?_, ?_, ?_⟩
  · intro r
    rw [hrunner]
    exact same.path r
  · intro r
    rw [hrunner]
    exact same.llama r
  · intro h
    rw [hmax, same.maxRunners h]
  · intro path h
    rcases hpending with hnone | heq
    · rw [hnone] at h
      cases h
    · rw [heq] at h
      exact same.absent path h

theorem Same.refl (s : Scheduler) : Same s s :=
  .of_pending rfl rfl rfl (fun _ => rfl) (fun _ => rfl) (.inr rfl)

/-- A model may be loaded in the memory there is. -/
theorem Same.fit {s : Scheduler} {q : LlmRequest} {n automatic : Nat} {pending : Pending}
    {delayed : List LlmRequest} (hpending : s.pending = .fitting q n)
    (habsent : ∀ path, pending.absent = some path → path = q.modelPath) : Same s { s with
      maxRunners := if s.maxRunners = 0 then automatic else s.maxRunners, pending, delayed } := by
  refine ⟨rfl, rfl, fun _ => rfl, fun _ => rfl, fun hpos => if_neg (by omega), ?_⟩
  intro path h
  left
  rw [hpending, habsent path h]
  rfl

theorem Same.finish (s : Scheduler) (q : LlmRequest) (r : Nat) :
    Same s ((s.setRunner r RunnerRef.release).processed q) :=
  .congr (.setRunner r (f := RunnerRef.release) (fun _ => rfl) (fun _ => rfl)) rfl rfl rfl rfl
    (.inr rfl)

theorem Same.trans {s s₁ s' : Scheduler} (same : Same s s₁) (same' : Same s₁ s')
    (hpending : s'.pending = s₁.pending) : Same s s' where
  loaded := same'.loaded.trans same.loaded
  created := same'.created.trans same.created
  path r := (same'.path r).trans (same.path r)
  llama r := (same'.llama r).trans (same.llama r)
  maxRunners h := by
    have h₁ : 0 < s₁.maxRunners := by rwa [same.maxRunners h]
    rw [same'.maxRunners h₁, same.maxRunners h]
  absent := by
    rw [hpending]
    exact same.absent

/-- Every step leaves the population as it is, or loads a model that is not loaded, or handles an
expired event. -/
theorem Step.effect {pid : Nat → Int} {s s' : Scheduler} {e : Event} (step : Step pid s e s') :
    Effect pid e s s' := by
  have rest := Same.refl s
  cases step with
  | getRunner => exact .same (rest.congr rfl rfl rfl rfl (.inr rfl))
  | receivePending =>
    refine .same (rest.congr rfl rfl rfl rfl (.inl ?_))
    dsimp only
    split
    · rfl
    · rfl
  | ignoreUnloaded => exact .same (rest.congr rfl rfl rfl rfl (.inr rfl))
  | isLoaded => exact .same (rest.congr rfl rfl rfl rfl (.inl rfl))
  | isFull => exact .same (rest.congr rfl rfl rfl rfl (.inl rfl))
  | hasRoom _ hnone hroom =>
    -- there is room for a model that is not loaded
    refine .same ⟨rfl, rfl, fun _ => rfl, fun _ => rfl, fun _ => rfl, ?_⟩
    intro path h
    obtain rfl := Option.some.inj h
    exact .inr ⟨hnone, hroom⟩
  | needsReload => exact .same (rest.congr rfl rfl rfl rfl (.inl rfl))
  | isUsable => exact .same (rest.congr rfl rfl rfl rfl (.inl rfl))
  | @useLoadedRunner q r =>
    exact .same (.congr (.setRunner r (f := fun x => { x.stopTimer with
      refCount := x.refCount + 1, sessionDuration := q.sessionDuration.getD x.sessionDuration })
      (fun _ => rfl) (fun _ => rfl)) rfl rfl rfl rfl (.inl rfl))
  | fitFails hpending => exact .same (.fit hpending (by simp [Pending.absent]))
  | fitLoads hpending => exact .same (.fit hpending (by simp [Pending.absent]))
  | fitUnloads hpending => exact .same (.fit hpending (by simp [Pending.absent]))
  | fitDelays hpending => exact .same (.fit hpending (by simp [Pending.absent]))
  | loadFails => exact .same (rest.congr rfl rfl rfl rfl (.inl rfl))
  | load hpending _ => exact .load _ hpending fun _ => rfl
  | replace hpending hloaded _ =>
    refine .load _ hpending fun hnone => ?_
    rw [hnone] at hloaded
    cases hloaded
  | nothingToUnload => exact .same (rest.congr rfl rfl rfl rfl (.inl rfl))
  | findRunnerToUnload => exact .same (rest.congr rfl rfl rfl rfl (.inl rfl))
  | @triggerExpire _ r => exact .same ((Same.expireNow s r).congr rfl rfl rfl rfl (.inl rfl))
  | receiveUnloaded => exact .same (rest.congr rfl rfl rfl rfl (.inl rfl))
  | @running r =>
    have same : Same s (s.setRunner r fun x => { x with
        refCount := x.refCount + 1, loading := false }) :=
      .setRunner r (fun _ => rfl) (fun _ => rfl)
    exact .same (same.congr rfl rfl rfl rfl (.inr rfl))
  | runningFails => exact .same (rest.congr rfl rfl rfl rfl (.inr rfl))
  | watch => exact .same (rest.congr rfl rfl rfl rfl (.inr rfl))
  | requeue => exact .same (rest.congr rfl rfl rfl rfl (.inr rfl))
  | retry => exact .same (rest.congr rfl rfl rfl rfl (.inr rfl))
  | @timerFires r =>
    have same : Same s (s.setRunner r fun x => { x with expireTimer := some false }) :=
      .setRunner r (fun _ => rfl) (fun _ => rfl)
    exact .same (same.congr rfl rfl rfl rfl (.inr rfl))
  | @timerExpires r =>
    have same : Same s (s.setRunner r RunnerRef.stopTimer) :=
      .setRunner r (fun _ => rfl) (fun _ => rfl)
    exact .same (same.congr rfl rfl rfl rfl (.inr rfl))
  | nothingToExpire => exact .same rest
  | expireRunner => exact .same (rest.congr rfl rfl rfl rfl (.inr rfl))
  | @expireRunnerNow r =>
    have same : Same s { s with expireCalls := s.expireCalls.erase r } :=
      rest.congr rfl rfl rfl rfl (.inr rfl)
    exact .same (same.trans (.expireNow _ r) (Scheduler.pending_expireNow ..))
  | finishedUnloaded => exact .same (rest.congr rfl rfl rfl rfl (.inr rfl))
  | receiveFinished => exact .same (rest.congr rfl rfl rfl rfl (.inr rfl))
  | @finishBusy q r => exact .same (.finish s q r)
  | @finishNow q r =>
    have stopped := (Same.finish s q r).trans (.setRunner r (f := RunnerRef.stopTimer)
      (fun _ => rfl) (fun _ => rfl)) rfl
    exact .same (stopped.congr rfl rfl rfl rfl (.inr rfl))
  | @finishLater q r =>
    exact .same ((Same.finish s q r).trans (.setRunner r (fun _ => rfl) (fun _ => rfl)) rfl)
  | expiredBusy => exact .same (rest.congr rfl rfl rfl rfl (.inr rfl))
  | receiveExpired => exact .same (rest.congr rfl rfl rfl rfl (.inr rfl))
  | expiredUnloaded => exact .same (rest.congr rfl rfl rfl rfl (.inr rfl))
  | @expiredOrphan r k _ hloaded hpid =>
    have closes := s.closes_unload r
    exact .orphan r k hloaded hpid rfl
      ⟨closes.created, closes.maxRunners, closes.pending, closes.path, closes.llama⟩
  | @unloadExpired r k hcompleted hloaded hpid =>
    have closes := s.closes_unload r
    exact .unload r k rfl hcompleted hloaded hpid rfl
      ⟨closes.created, closes.maxRunners, closes.pending, closes.path, closes.llama⟩
  | recovered => exact .same (rest.congr rfl rfl rfl rfl (.inr rfl))

/-! ### The invariant -/

/-- The open llama servers are those of the loaded runners, one for each path. -/
structure Population (s : Scheduler) : Prop where
  nodup : s.loaded.Nodup
  old : ∀ r ∈ s.loaded, r < s.created
  distinct : ∀ r ∈ s.loaded, ∀ k ∈ s.loaded,
    (s.runner r).modelPath = (s.runner k).modelPath → r = k
  alive : ∀ r, (s.runner r).llama = true ↔ r ∈ s.loaded
  absent : ∀ path, s.pending.absent = some path → s.loadedFor path = none

/-- There is room for the model that is about to be loaded. -/
structure Bounded (M : Nat) (s : Scheduler) : Prop where
  maxRunners : s.maxRunners = M
  length_le : s.loaded.length ≤ M
  room : s.pending.absent ≠ none → s.loaded.length < M

/-- An expired event does not take another runner for its own. -/
def OwnPid (pid : Nat → Int) (s : Scheduler) : Prop :=
  ∀ r k, s.completed = .expired r → s.loadedFor (s.runner r).modelPath = some k →
    pid r = pid k → r = k

theorem Same.population {s s' : Scheduler} (same : Same s s') (h : Population s) :
    Population s' := by
  have hfor := Scheduler.loadedFor_congr same.loaded same.path
  refine ⟨?_, ?_, ?_, ?_, ?_⟩
  · rw [same.loaded]
    exact h.nodup
  · rw [same.loaded, same.created]
    exact h.old
  · rw [same.loaded]
    intro r hr k hk heq
    rw [same.path, same.path] at heq
    exact h.distinct r hr k hk heq
  · intro r
    rw [same.llama, same.loaded]
    exact h.alive r
  · intro path habsent
    rw [hfor]
    rcases same.absent path habsent with habsent | ⟨hnone, -⟩
    · exact h.absent path habsent
    · exact hnone

theorem Same.bounded {s s' : Scheduler} (same : Same s s') {M : Nat} (hM : 0 < M)
    (h : Bounded M s) : Bounded M s' := by
  have hmax := h.maxRunners
  refine ⟨?_, ?_, ?_⟩
  · rw [same.maxRunners (by omega), hmax]
  · rw [same.loaded]
    exact h.length_le
  · intro habsent
    obtain ⟨path, hpath⟩ := Option.ne_none_iff_exists'.mp habsent
    rw [same.loaded]
    rcases same.absent path hpath with hold | ⟨-, hroom⟩
    · exact h.room (by rw [hold]; exact Option.some_ne_none path)
    · omega

/-- Where no runner of the path is loaded, nothing is replaced. -/
theorem Scheduler.loaded_insert {s : Scheduler} {q : LlmRequest}
    (h : s.loadedFor q.modelPath = none) : (s.insert q).loaded = s.loaded ++ [s.created] := by
  have : (s.loaded.filter fun k => (s.runner k).modelPath ≠ q.modelPath) = s.loaded := by
    rw [List.filter_eq_self]
    intro k hk
    exact decide_eq_true (loadedFor_none h k hk)
  rw [insert]
  exact congrArg (· ++ [s.created]) this

theorem Scheduler.runner_insert (s : Scheduler) (q : LlmRequest) (k : Nat) :
    (s.insert q).runner k = if k = s.created then
      { modelPath := q.modelPath, llama := true, loading := true
        sessionDuration := q.sessionDuration.getD s.keepAlive } else s.runner k := rfl

theorem Population.insert {s : Scheduler} {q : LlmRequest} (h : Population s)
    (hnone : s.loadedFor q.modelPath = none) : Population (s.insert q) := by
  have hloaded := Scheduler.loaded_insert hnone
  have hnew : s.created ∉ s.loaded := fun hmem => Nat.lt_irrefl _ (h.old _ hmem)
  have hold (r : Nat) (hr : r ∈ s.loaded) : (s.insert q).runner r = s.runner r := by
    rw [Scheduler.runner_insert, if_neg]
    rintro rfl
    exact hnew hr
  have hself : ((s.insert q).runner s.created).modelPath = q.modelPath := by
    rw [Scheduler.runner_insert, if_pos rfl]
  refine ⟨?_, ?_, ?_, ?_, ?_⟩
  · rw [hloaded, List.nodup_append]
    refine ⟨h.nodup, by simp, ?_⟩
    intro a ha b hb heq
    rw [List.mem_singleton] at hb
    rw [heq, hb] at ha
    exact hnew ha
  · intro r hr
    rw [hloaded, List.mem_append, List.mem_singleton] at hr
    change r < s.created + 1
    rcases hr with hr | rfl
    · exact Nat.lt_succ_of_lt (h.old r hr)
    · exact Nat.lt_succ_self _
  · intro r hr k hk heq
    rw [hloaded, List.mem_append, List.mem_singleton] at hr hk
    rcases hr with hr | rfl
    · rcases hk with hk | rfl
      · rw [hold r hr, hold k hk] at heq
        exact h.distinct r hr k hk heq
      · rw [hold r hr, hself] at heq
        exact absurd heq (Scheduler.loadedFor_none hnone r hr)
    · rcases hk with hk | rfl
      · rw [hold k hk, hself] at heq
        exact absurd heq.symm (Scheduler.loadedFor_none hnone k hk)
      · rfl
  · intro r
    rw [hloaded, List.mem_append, List.mem_singleton, Scheduler.runner_insert]
    split
    · rename_i heq
      simp [heq]
    · rename_i hne
      rw [h.alive r]
      simp [hne]
  · intro path habsent
    cases habsent

theorem Closes.population {s s' : Scheduler} {r : Nat} (closes : Closes s s' r) (h : Population s)
    (hmem : ∀ k, k ∈ s'.loaded ↔ k ∈ s.loaded ∧ k ≠ r) (hsub : s'.loaded.Sublist s.loaded) :
    Population s' := by
  refine ⟨hsub.nodup h.nodup, ?_, ?_, ?_, ?_⟩
  · intro k hk
    rw [closes.created]
    exact h.old k (hsub.subset hk)
  · intro k hk k' hk' heq
    rw [closes.path, closes.path] at heq
    exact h.distinct k (hsub.subset hk) k' (hsub.subset hk') heq
  · intro k
    rw [closes.llama, hmem]
    split
    · rename_i heq
      simp [heq]
    · rename_i hne
      rw [h.alive k]
      simp [hne]
  · intro path habsent
    rw [closes.pending] at habsent
    have hnone := h.absent path habsent
    rw [Scheduler.loadedFor, List.find?_eq_none] at hnone ⊢
    intro k hk
    rw [closes.path]
    exact hnone k (hsub.subset hk)

theorem Effect.population {pid : Nat → Int} {e : Event} {s s' : Scheduler}
    (effect : Effect pid e s s') (h : Population s) (own : e = .unloadExpired → OwnPid pid s) :
    Population s' := by
  cases effect with
  | same same => exact same.population h
  | load q hpending hinsert =>
    have hnone := h.absent q.modelPath (by rw [hpending]; rfl)
    rw [hinsert hnone]
    exact h.insert hnone
  | orphan r k hloaded hpid hsame closes =>
    -- the runner of the event is not loaded: the one of its path is another
    obtain ⟨hk, hpath⟩ := Scheduler.loadedFor_some hloaded
    have hr : r ∉ s.loaded := by
      intro hr
      rw [h.distinct k hk r hr hpath] at hpid
      exact hpid rfl
    refine closes.population h ?_ (by rw [hsame])
    intro k'
    rw [hsame]
    refine ⟨fun hk' => ⟨hk', ?_⟩, fun hk' => hk'.1⟩
    rintro rfl
    exact hr hk'
  | unload r k he hcompleted hloaded hpid hfilter closes =>
    obtain rfl := own he r k hcompleted hloaded hpid
    obtain ⟨hr, -⟩ := Scheduler.loadedFor_some hloaded
    refine closes.population h ?_ (by rw [hfilter]; exact List.filter_sublist)
    intro k
    rw [hfilter, List.mem_filter, decide_eq_true_eq]
    refine and_congr_right fun hk => not_congr ⟨fun heq => h.distinct k hk r hr heq, ?_⟩
    rintro rfl
    rfl

theorem Effect.bounded {pid : Nat → Int} {e : Event} {s s' : Scheduler}
    (effect : Effect pid e s s') {M : Nat} (hM : 0 < M) (population : Population s)
    (h : Bounded M s) : Bounded M s' := by
  have closed {r : Nat} (closes : Closes s s' r) (hle : s'.loaded.length ≤ s.loaded.length) :
      Bounded M s' := by
    refine ⟨closes.maxRunners.trans h.maxRunners, Nat.le_trans hle h.length_le, ?_⟩
    rw [closes.pending]
    exact fun habsent => Nat.lt_of_le_of_lt hle (h.room habsent)
  cases effect with
  | same same => exact same.bounded hM h
  | load q hpending hinsert =>
    have hnone := population.absent q.modelPath (by rw [hpending]; rfl)
    have hroom := h.room (by rw [hpending]; exact Option.some_ne_none _)
    rw [hinsert hnone]
    refine ⟨h.maxRunners, ?_, fun habsent => absurd rfl habsent⟩
    rw [Scheduler.loaded_insert hnone, List.length_append, List.length_singleton]
    omega
  | orphan r k hloaded hpid hsame closes => exact closed closes (hsame ▸ Nat.le_refl _)
  | unload r k he hcompleted hloaded hpid hfilter closes =>
    exact closed closes (by rw [hfilter]; exact List.length_filter_le _ _)

/-! ### Runs -/

/-- The llama server of the runner was started, and is not closed by `unload`. -/
def Scheduler.Alive (s : Scheduler) (r : Nat) : Prop := (s.runner r).llama = true

theorem population_start (maxRunners : Nat) (keepAlive : Int) :
    Population { maxRunners, keepAlive } := by
  refine ⟨List.nodup_nil, ?_, ?_, ?_, ?_⟩
  · simp
  · simp
  · simp
  · simp [Pending.absent]

/-- With a llama server of its own process for each runner, at most `M` runners are loaded after
every run, and the llama servers that are open are exactly theirs. -/
theorem run_population {pid : Nat → Int} (hpid : Function.Injective pid) {M : Nat} (hM : 0 < M)
    {keepAlive : Int} {events : List Event} {s : Scheduler}
    (hrun : run pid M keepAlive events = some s) :
    s.loaded.length ≤ M ∧ (∀ r, s.Alive r ↔ r ∈ s.loaded) ∧
      ∀ r k, s.Alive r → s.Alive k → (s.runner r).modelPath = (s.runner k).modelPath → r = k := by
  obtain ⟨population, bounded⟩ := foldlM_invariant (I := fun s => Population s ∧ Bounded M s)
    (fun s s' e _ ⟨population, bounded⟩ h =>
      have effect := (Event.step h).effect
      ⟨effect.population population fun _ _ _ _ _ heq => hpid heq,
        effect.bounded hM population bounded⟩)
    hrun ⟨population_start M keepAlive, rfl, Nat.zero_le _, fun h => absurd rfl h⟩
  refine ⟨bounded.length_le, population.alive, ?_⟩
  intro r k hr hk heq
  exact population.distinct r ((population.alive r).mp hr) k ((population.alive k).mp hk) heq

/-- A model is loaded, and expires for another one where only one may be loaded. -/
def replaced : List Event :=
  let a : LlmRequest := { modelPath := [1], sessionDuration := some 5 }
  let b : LlmRequest := { modelPath := [2] }
  [.getRunner a, .receivePending false, .schedule, .fit .load 0, .load true, .running 0 a true,
    .watch a, .receiveFinished, .finish, .getRunner b, .receivePending false, .schedule,
    .findRunnerToUnload 0, .triggerExpire, .receiveExpired, .unloadExpired, .recovered,
    .receiveUnloaded, .schedule, .fit .load 0, .load true]

theorem replaced_population : ∃ s, run (fun r => r) 1 300 replaced = some s ∧ s.loaded = [1] ∧
    (s.loaded.length ≤ 1 ∧ (∀ r, s.Alive r ↔ r ∈ s.loaded) ∧
      ∀ r k, s.Alive r → s.Alive k → (s.runner r).modelPath = (s.runner k).modelPath → r = k) := by
  obtain ⟨s, hrun, hloaded⟩ : ∃ s, run (fun r => r) 1 300 replaced = some s ∧ s.loaded = [1] :=
    ⟨_, rfl, rfl⟩
  exact ⟨s, hrun, hloaded, run_population (fun _ _ h => Int.ofNat.inj h) Nat.one_pos hrun⟩

end

section

open Ecco9.Library

def Pending.target : Pending → Option Nat
  | found _ r => some r
  | usable _ r => some r
  | expiring _ r => some r
  | _ => none

def Completed.runner : Completed → Option Nat
  | waiting => none
  | finished _ r => some r
  | expired r => some r
  | recovering r => some r

structure Known (s : Scheduler) : Prop where
  expired : ∀ r ∈ s.expiredCh, r < s.created
  retrying : ∀ r ∈ s.retrying, r < s.created
  fired : ∀ r ∈ s.fired, r < s.created
  calls : ∀ r ∈ s.expireCalls, r < s.created
  loading : ∀ l ∈ s.loading, l.1 < s.created
  target : ∀ r, s.pending.target = some r → r < s.created
  runner : ∀ r, s.completed.runner = some r → r < s.created
  timer : ∀ r, (s.runner r).expireTimer ≠ none → r < s.created

theorem known_start (maxRunners : Nat) (keepAlive : Int) : Known { maxRunners, keepAlive } := by
  refine ⟨?_, ?_, ?_, ?_, ?_, ?_, ?_, ?_⟩
  all_goals simp [Pending.target, Completed.runner]

theorem mem_snoc {α : Type} {P : α → Prop} {l : List α} {a : α} (hl : ∀ x ∈ l, P x) (ha : P a) :
    ∀ x ∈ l ++ [a], P x := by
  intro x hx
  rcases List.mem_append.mp hx with hx | hx
  · exact hl x hx
  · rw [List.mem_singleton.mp hx]
    exact ha

theorem Known.sendExpired {s : Scheduler} (h : Known s) {r : Nat} (hr : r < s.created) :
    Known (s.sendExpired r) := { h with expired := mem_snoc h.expired hr }

theorem Known.setRunner {s : Scheduler} (h : Known s) {r : Nat} {f : RunnerRef → RunnerRef}
    (hf : r < s.created ∨ ∀ x, (f x).expireTimer ≠ none → x.expireTimer ≠ none) :
    Known (s.setRunner r f) := by
  refine { h with timer := ?_ }
  intro k hk
  rw [Scheduler.runner_setRunner] at hk
  split at hk
  · rename_i heq
    rcases hf with hr | hf
    · rw [heq]
      exact hr
    · exact h.timer k (hf _ hk)
  · exact h.timer k hk

theorem Known.expireNow {s : Scheduler} (h : Known s) {r : Nat} (hr : r < s.created) :
    Known (s.expireNow r) := by
  have stopped : Known (s.setRunner r fun x => { x.stopTimer with sessionDuration := 0 }) :=
    h.setRunner (.inl hr)
  rcases s.expireNow_cases r with heq | heq
  · rw [heq]
    exact stopped
  · rw [heq]
    exact stopped.sendExpired hr

theorem Known.insert {s : Scheduler} (h : Known s) (q : LlmRequest) : Known (s.insert q) := by
  have later {r : Nat} (hr : r < s.created) : r < (s.insert q).created := Nat.lt_succ_of_lt hr
  refine ⟨fun r hr => later (h.expired r hr), fun r hr => later (h.retrying r hr),
    fun r hr => later (h.fired r hr), fun r hr => later (h.calls r hr),
    mem_snoc (fun l hl => later (h.loading l hl)) (Nat.lt_succ_self _), ?_,
    fun r hr => later (h.runner r hr), ?_⟩
  · intro r hr
    cases hr
  · intro r hr
    rw [Scheduler.runner_insert] at hr
    split at hr
    · exact absurd rfl hr
    · exact later (h.timer r hr)

/-- `processPending` comes to a runner that was created, or to none. -/
theorem Known.withPending {s : Scheduler} (h : Known s) {pending : Pending}
    (hp : ∀ r, pending.target = some r → r < s.created) : Known { s with pending } :=
  { h with target := hp }

theorem Known.finish {s : Scheduler} (h : Known s) {q : LlmRequest} {r : Nat}
    (hr : r < s.created) : Known ((s.setRunner r RunnerRef.release).processed q) :=
  { h.setRunner (f := RunnerRef.release) (.inl hr) with runner := nofun }

/-- Every step keeps it; a runner that is found under its path is among those that were created. -/
theorem Known.step {pid : Nat → Int} {s s' : Scheduler} {e : Event} (h : Known s)
    (old : ∀ r ∈ s.loaded, r < s.created) (step : Step pid s e s') : Known s' := by
  have found {path : Text} {r : Nat} (hloaded : s.loadedFor path = some r) : r < s.created :=
    old r (Scheduler.loadedFor_some hloaded).1
  have target {r : Nat} (hr : s.pending.target = some r) : r < s.created := h.target r hr
  have runner {r : Nat} (hr : s.completed.runner = some r) : r < s.created := h.runner r hr
  -- the runner that a loop comes to is the one that is known to have been created
  have only {r : Nat} (hr : r < s.created) (k : Nat) (hk : some r = some k) : k < s.created :=
    Option.some.inj hk ▸ hr
  cases step with
  | getRunner => exact { h with }
  | @receivePending cancelled =>
    refine { h with target := ?_ }
    cases cancelled <;> nofun
  | ignoreUnloaded => exact { h with }
  | isLoaded _ hloaded => exact h.withPending (only (found hloaded))
  | isFull => exact h.withPending nofun
  | hasRoom => exact h.withPending nofun
  | needsReload hpending => exact h.withPending (only (target (by rw [hpending]; rfl)))
  | isUsable hpending => exact h.withPending (only (target (by rw [hpending]; rfl)))
  | @useLoadedRunner q r hpending =>
    exact { h.setRunner (f := fun x => { x.stopTimer with
      refCount := x.refCount + 1
      sessionDuration := q.sessionDuration.getD x.sessionDuration })
      (.inl (target (by rw [hpending]; rfl))) with target := nofun }
  | fitFails => exact { h with target := nofun }
  | fitLoads => exact { h with target := nofun }
  | fitUnloads => exact { h with target := nofun }
  | fitDelays => exact { h with target := nofun }
  | loadFails => exact h.withPending nofun
  | load => exact h.insert _
  | replace _ hloaded => exact (h.setRunner (f := RunnerRef.unload) (.inl (found hloaded))).insert _
  | nothingToUnload => exact h.withPending nofun
  | findRunnerToUnload _ hmem => exact h.withPending (only (old _ hmem))
  | triggerExpire hpending =>
    exact (h.expireNow (target (by rw [hpending]; rfl))).withPending nofun
  | receiveUnloaded => exact { h with target := nofun }
  | @running r q hmem =>
    have rest : Known { s with loading := s.loading.erase (r, q) } :=
      { h with loading := fun l hl => h.loading l (List.mem_of_mem_erase hl) }
    exact { rest.setRunner (r := r) (f := fun x => { x with
      refCount := x.refCount + 1, loading := false }) (.inl (h.loading _ hmem)) with }
  | @runningFails r q hmem =>
    have rest : Known { s with loading := s.loading.erase (r, q) } :=
      { h with loading := fun l hl => h.loading l (List.mem_of_mem_erase hl) }
    exact { rest.sendExpired (h.loading (r, q) hmem) with }
  | watch => exact { h with }
  | requeue => exact { h with }
  | retry hmem =>
    exact { h with
      expired := mem_snoc h.expired (h.retrying _ hmem)
      retrying := fun k hk => h.retrying k (List.mem_of_mem_erase hk) }
  | @timerFires r htimer =>
    have hr : r < s.created := h.timer r (by rw [htimer]; exact Option.some_ne_none _)
    exact { h.setRunner (f := fun x => { x with expireTimer := some false }) (.inl hr) with
      fired := mem_snoc h.fired hr }
  | @timerExpires r hmem =>
    have rest : Known { s with fired := s.fired.erase r } :=
      { h with fired := fun k hk => h.fired k (List.mem_of_mem_erase hk) }
    have hr : r < s.created := h.fired r hmem
    exact (rest.setRunner (f := RunnerRef.stopTimer) (.inl hr)).sendExpired hr
  | nothingToExpire => exact h
  | expireRunner hloaded => exact { h with calls := mem_snoc h.calls (found hloaded) }
  | @expireRunnerNow r hmem =>
    have rest : Known { s with expireCalls := s.expireCalls.erase r } :=
      { h with calls := fun k hk => h.calls k (List.mem_of_mem_erase hk) }
    exact rest.expireNow (h.calls r hmem)
  | finishedUnloaded => exact { h with runner := nofun }
  | receiveFinished _ _ hloaded => exact { h with runner := only (found hloaded) }
  | finishBusy hcompleted => exact h.finish (runner (by rw [hcompleted]; rfl))
  | @finishNow q r hcompleted =>
    have hr : r < s.created := runner (by rw [hcompleted]; rfl)
    exact ((h.finish hr).setRunner (f := RunnerRef.stopTimer) (.inl hr)).sendExpired hr
  | @finishLater q r hcompleted =>
    have hr : r < s.created := runner (by rw [hcompleted]; rfl)
    exact (h.finish hr).setRunner (.inl hr)
  | expiredBusy _ hch =>
    obtain ⟨hr, hrest⟩ := List.forall_mem_cons.mp (hch ▸ h.expired)
    exact { h with expired := hrest, retrying := mem_snoc h.retrying hr }
  | receiveExpired _ hch =>
    obtain ⟨hr, hrest⟩ := List.forall_mem_cons.mp (hch ▸ h.expired)
    exact { h with expired := hrest, runner := only hr }
  | expiredUnloaded => exact { h with runner := nofun }
  | expiredOrphan hcompleted =>
    exact { h.setRunner (f := RunnerRef.unload) (.inl (runner (by rw [hcompleted]; rfl))) with
      runner := nofun }
  | @unloadExpired r _ hcompleted =>
    have hr : r < s.created := runner (by rw [hcompleted]; rfl)
    exact { h.setRunner (f := RunnerRef.unload) (.inl hr) with runner := only hr }
  | recovered => exact { h with runner := nofun }

end

end Ecco9.Sched
