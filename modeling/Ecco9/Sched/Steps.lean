import Ecco9.Sched.Scheduler

/-! What each step of the scheduler needs, and what it does: one case for each way out of the section
that the step is. -/

namespace Ecco9.Sched

open Ecco9.Library

/-- The schedulers that a step of `s` leads to. -/
inductive Step (pid : Nat → Int) (s : Scheduler) : Event → Scheduler → Prop
  | getRunner (q) : Step pid s (.getRunner q) { s with pendingReqCh := s.pendingReqCh ++ [q] }
  | receivePending {cancelled q rest} : s.pending = .waiting → s.pendingReqCh = q :: rest →
      Step pid s (.receivePending cancelled) { s with
        pendingReqCh := rest, pending := if cancelled then .waiting else .scheduling q }
  | ignoreUnloaded {n} : s.pending = .waiting → s.unloadedCh = n + 1 →
      Step pid s .ignoreUnloaded { s with unloadedCh := n }
  | isLoaded {q r} : s.pending = .scheduling q → s.loadedFor q.modelPath = some r →
      Step pid s .schedule { s with pending := .found q r }
  | isFull {q} : s.pending = .scheduling q → s.loadedFor q.modelPath = none →
      s.maxRunners > 0 ∧ s.loaded.length ≥ s.maxRunners →
      Step pid s .schedule { s with pending := .evicting q }
  | hasRoom {q} : s.pending = .scheduling q → s.loadedFor q.modelPath = none →
      ¬(s.maxRunners > 0 ∧ s.loaded.length ≥ s.maxRunners) →
      Step pid s .schedule { s with pending := .fitting q s.loaded.length }
  | needsReload {differs q r} : s.pending = .found q r → s.refMu r = .free →
      (!(s.runner r).llama || differs) = true →
      Step pid s (.needsReload differs) { s with pending := .expiring q r }
  | isUsable {differs q r} : s.pending = .found q r → s.refMu r = .free →
      ¬(!(s.runner r).llama || differs) = true →
      Step pid s (.needsReload differs) { s with pending := .usable q r }
  | useLoadedRunner {q r} : s.pending = .usable q r → s.refMu r = .free →
      Step pid s .useLoadedRunner { (s.setRunner r fun x => { x.stopTimer with
        refCount := x.refCount + 1
        sessionDuration := q.sessionDuration.getD x.sessionDuration }).grant q r with
        pending := .waiting }
  | fitFails {automatic q n} : s.pending = .fitting q n → Step pid s (.fit .fails automatic) { s with
      maxRunners := if s.maxRunners = 0 then automatic else s.maxRunners, pending := .waiting }
  | fitLoads {automatic q n} : s.pending = .fitting q n → Step pid s (.fit .load automatic) { s with
      maxRunners := if s.maxRunners = 0 then automatic else s.maxRunners, pending := .starting q }
  | fitUnloads {automatic q n} : s.pending = .fitting q n → n ≠ 0 →
      Step pid s (.fit .unload automatic) { s with
        maxRunners := if s.maxRunners = 0 then automatic else s.maxRunners, pending := .evicting q }
  | fitDelays {automatic q n} : s.pending = .fitting q n → n ≠ 0 →
      Step pid s (.fit .delay automatic) { s with
        maxRunners := if s.maxRunners = 0 then automatic else s.maxRunners
        pending := .waiting, delayed := s.delayed ++ [q] }
  | loadFails {q} : s.pending = .starting q →
      Step pid s (.load false) { s with pending := .waiting }
  | load {q} : s.pending = .starting q → s.loadedFor q.modelPath = none →
      Step pid s (.load true) (s.insert q)
  | replace {q old} : s.pending = .starting q → s.loadedFor q.modelPath = some old →
      s.refMu old = .free → Step pid s (.load true) ((s.setRunner old RunnerRef.unload).insert q)
  | nothingToUnload {victim q} : s.pending = .evicting q → s.loaded = [] →
      Step pid s (.findRunnerToUnload victim) { s with pending := .scheduling q }
  | findRunnerToUnload {victim q} : s.pending = .evicting q → victim ∈ s.loaded →
      Step pid s (.findRunnerToUnload victim) { s with pending := .expiring q victim }
  | triggerExpire {q r} : s.pending = .expiring q r → s.refMu r = .free →
      Step pid s .triggerExpire { s.expireNow r with pending := .unloading q }
  | receiveUnloaded {q n} : s.pending = .unloading q → s.unloadedCh = n + 1 →
      Step pid s .receiveUnloaded { s with unloadedCh := n, pending := .scheduling q }
  | running {r q} : (r, q) ∈ s.loading → Step pid s (.running r q true)
      (((({ s with loading := s.loading.erase (r, q) } : Scheduler).setRunner r fun x => { x with
        refCount := x.refCount + 1, loading := false }).grant q r).setRefMu r .free)
  | runningFails {r q} : (r, q) ∈ s.loading → Step pid s (.running r q false)
      ((({ s with loading := s.loading.erase (r, q) } : Scheduler).sendExpired r).setRefMu r .free)
  | watch {q} : q ∈ s.watching → Step pid s (.watch q) { s with
      watching := s.watching.erase q, finishedReqCh := s.finishedReqCh ++ [q] }
  | requeue {q} : q ∈ s.delayed → Step pid s (.requeue q) { s with
      delayed := s.delayed.erase q, pendingReqCh := s.pendingReqCh ++ [q] }
  | retry {r} : r ∈ s.retrying → Step pid s (.retry r)
      (({ s with retrying := s.retrying.erase r } : Scheduler).sendExpired r)
  | timerFires {r} : (s.runner r).expireTimer = some true → Step pid s (.timerFires r)
      { s.setRunner r fun x => { x with expireTimer := some false } with fired := s.fired ++ [r] }
  | timerExpires {r} : r ∈ s.fired → s.refMu r = .free → Step pid s (.timerExpires r)
      ((({ s with fired := s.fired.erase r } : Scheduler).setRunner r
        RunnerRef.stopTimer).sendExpired r)
  | nothingToExpire {path} : s.loadedFor path = none → Step pid s (.expireRunner path) s
  | expireRunner {path r} : s.loadedFor path = some r →
      Step pid s (.expireRunner path) { s with expireCalls := s.expireCalls ++ [r] }
  | expireRunnerNow {r} : r ∈ s.expireCalls → s.refMu r = .free → Step pid s (.expireRunnerNow r)
      (({ s with expireCalls := s.expireCalls.erase r } : Scheduler).expireNow r)
  | finishedUnloaded {q rest} : s.completed = .waiting → s.finishedReqCh = q :: rest →
      s.loadedFor q.modelPath = none →
      Step pid s .receiveFinished (({ s with finishedReqCh := rest } : Scheduler).processed q)
  | receiveFinished {q rest r} : s.completed = .waiting → s.finishedReqCh = q :: rest →
      s.loadedFor q.modelPath = some r →
      Step pid s .receiveFinished { s with finishedReqCh := rest, completed := .finished q r }
  | finishBusy {q r} : s.completed = .finished q r → s.refMu r = .free →
      Step pid s .finish ((s.setRunner r RunnerRef.release).processed q)
  | finishNow {q r} : s.completed = .finished q r → s.refMu r = .free → Step pid s .finish
      ((((s.setRunner r RunnerRef.release).processed q).setRunner r RunnerRef.stopTimer).sendExpired r)
  | finishLater {q r} : s.completed = .finished q r → s.refMu r = .free → Step pid s .finish
      (((s.setRunner r RunnerRef.release).processed q).setRunner r fun x => { x with
        expireTimer := some true })
  | expiredBusy {r rest} : s.completed = .waiting → s.expiredCh = r :: rest → s.refMu r = .free →
      (s.runner r).refCount > 0 →
      Step pid s .receiveExpired { s with expiredCh := rest, retrying := s.retrying ++ [r] }
  | receiveExpired {r rest} : s.completed = .waiting → s.expiredCh = r :: rest →
      s.refMu r = .free → ¬(s.runner r).refCount > 0 → Step pid s .receiveExpired
        { ({ s with expiredCh := rest } : Scheduler).setRefMu r .completed with
          completed := .expired r }
  | expiredUnloaded {r} : s.completed = .expired r → s.loadedFor (s.runner r).modelPath = none →
      Step pid s .unloadExpired { s.setRefMu r .free with completed := .waiting }
  | expiredOrphan {r k} : s.completed = .expired r → s.loadedFor (s.runner r).modelPath = some k →
      pid r ≠ pid k → Step pid s .unloadExpired
        { (s.setRunner r RunnerRef.unload).setRefMu r .free with completed := .waiting }
  | unloadExpired {r k} : s.completed = .expired r → s.loadedFor (s.runner r).modelPath = some k →
      pid r = pid k → Step pid s .unloadExpired { s.setRunner r RunnerRef.unload with
        loaded := s.loaded.filter fun k => (s.runner k).modelPath ≠ (s.runner r).modelPath
        completed := .recovering r }
  | recovered {r} : s.completed = .recovering r → Step pid s .recovered
      { s.setRefMu r .free with unloadedCh := s.unloadedCh + 1, completed := .waiting }

section

variable {pid : Nat → Int} {s s' : Scheduler}

theorem Scheduler.schedule_step (h : s.schedule = some s') : Step pid s .schedule s' := by
  unfold schedule at h
  split at h
  · rename_i q hpending
    split at h
    · rename_i r hloaded
      obtain rfl := Option.some.inj h
      exact .isLoaded hpending hloaded
    · rename_i hnone
      split at h
      · rename_i hfull
        obtain rfl := Option.some.inj h
        exact .isFull hpending hnone hfull
      · rename_i hroom
        obtain rfl := Option.some.inj h
        exact .hasRoom hpending hnone hroom
  · cases h

theorem Scheduler.needsReload_step {differs : Bool} (h : s.needsReload differs = some s') :
    Step pid s (.needsReload differs) s' := by
  unfold needsReload at h
  split at h
  · rename_i q r hpending
    split at h
    · cases h
    · rename_i hfree
      split at h
      · rename_i hreload
        obtain rfl := Option.some.inj h
        exact .needsReload hpending (not_not.mp hfree) hreload
      · rename_i hreload
        obtain rfl := Option.some.inj h
        exact .isUsable hpending (not_not.mp hfree) hreload
  · cases h

theorem Scheduler.fit_step {choice : Fit} {automatic : Nat} (h : s.fit choice automatic = some s') :
    Step pid s (.fit choice automatic) s' := by
  unfold fit at h
  split at h
  · rename_i q n hpending
    cases choice with
    | fails =>
      obtain rfl := Option.some.inj h
      exact .fitFails hpending
    | load =>
      obtain rfl := Option.some.inj h
      exact .fitLoads hpending
    | unload =>
      dsimp only at h
      split at h
      · cases h
      · rename_i hn
        obtain rfl := Option.some.inj h
        exact .fitUnloads hpending hn
    | delay =>
      dsimp only at h
      split at h
      · cases h
      · rename_i hn
        obtain rfl := Option.some.inj h
        exact .fitDelays hpending hn
  · cases h

theorem Scheduler.load_step {ok : Bool} (h : s.load ok = some s') : Step pid s (.load ok) s' := by
  unfold load at h
  split at h
  · rename_i q hpending
    cases ok with
    | false =>
      obtain rfl := Option.some.inj h
      exact .loadFails hpending
    | true =>
      rw [if_neg (by decide)] at h
      split at h
      · rename_i hnone
        obtain rfl := Option.some.inj h
        exact .load hpending hnone
      · rename_i old hloaded
        split at h
        · cases h
        · rename_i hfree
          obtain rfl := Option.some.inj h
          exact .replace hpending hloaded (not_not.mp hfree)
  · cases h

theorem Scheduler.findRunnerToUnload_step {victim : Nat}
    (h : s.findRunnerToUnload victim = some s') : Step pid s (.findRunnerToUnload victim) s' := by
  unfold findRunnerToUnload at h
  split at h
  · rename_i q hpending
    split at h
    · rename_i hnil
      obtain rfl := Option.some.inj h
      exact .nothingToUnload hpending hnil
    · split at h
      · rename_i hmem
        obtain rfl := Option.some.inj h
        exact .findRunnerToUnload hpending hmem
      · cases h
  · cases h

theorem Scheduler.running_step {r : Nat} {q : LlmRequest} {ok : Bool}
    (h : s.running r q ok = some s') : Step pid s (.running r q ok) s' := by
  unfold running at h
  split at h
  · cases h
  · rename_i hmem
    cases ok with
    | true =>
      obtain rfl := Option.some.inj h
      exact .running (not_not.mp hmem)
    | false =>
      obtain rfl := Option.some.inj h
      exact .runningFails (not_not.mp hmem)

theorem Scheduler.receiveFinished_step (h : s.receiveFinished = some s') :
    Step pid s .receiveFinished s' := by
  unfold receiveFinished at h
  split at h
  · rename_i q rest hcompleted hch
    dsimp only at h
    split at h
    · rename_i hnone
      obtain rfl := Option.some.inj h
      exact .finishedUnloaded hcompleted hch hnone
    · rename_i r hloaded
      obtain rfl := Option.some.inj h
      exact .receiveFinished hcompleted hch hloaded
  · cases h

theorem Scheduler.finish_step (h : s.finish = some s') : Step pid s .finish s' := by
  unfold finish at h
  split at h
  · rename_i q r hcompleted
    split at h
    · cases h
    · rename_i hfree
      dsimp only at h
      split at h
      · obtain rfl := Option.some.inj h
        exact .finishBusy hcompleted (not_not.mp hfree)
      · split at h
        · obtain rfl := Option.some.inj h
          exact .finishNow hcompleted (not_not.mp hfree)
        · obtain rfl := Option.some.inj h
          exact .finishLater hcompleted (not_not.mp hfree)
  · cases h

theorem Scheduler.receiveExpired_step (h : s.receiveExpired = some s') :
    Step pid s .receiveExpired s' := by
  unfold receiveExpired at h
  split at h
  · rename_i r rest hcompleted hch
    split at h
    · cases h
    · rename_i hfree
      dsimp only at h
      split at h
      · rename_i hbusy
        obtain rfl := Option.some.inj h
        exact .expiredBusy hcompleted hch (not_not.mp hfree) hbusy
      · rename_i hidle
        obtain rfl := Option.some.inj h
        exact .receiveExpired hcompleted hch (not_not.mp hfree) hidle
  · cases h

theorem Scheduler.unloadExpired_step (h : s.unloadExpired pid = some s') :
    Step pid s .unloadExpired s' := by
  unfold unloadExpired at h
  split at h
  · rename_i r hcompleted
    split at h
    · rename_i hnone
      obtain rfl := Option.some.inj h
      exact .expiredUnloaded hcompleted hnone
    · rename_i k hloaded
      split at h
      · rename_i hpid
        obtain rfl := Option.some.inj h
        exact .expiredOrphan hcompleted hloaded hpid
      · rename_i hpid
        obtain rfl := Option.some.inj h
        exact .unloadExpired hcompleted hloaded (not_not.mp hpid)
  · cases h

theorem Event.step {e : Event} (h : e.apply pid s = some s') : Step pid s e s' := by
  cases e with
  | getRunner q =>
    obtain rfl := Option.some.inj h
    exact .getRunner q
  | receivePending cancelled =>
    rw [apply, Scheduler.receivePending] at h
    split at h
    · rename_i q rest hpending hch
      obtain rfl := Option.some.inj h
      exact .receivePending hpending hch
    · cases h
  | ignoreUnloaded =>
    rw [apply, Scheduler.ignoreUnloaded] at h
    split at h
    · rename_i n hpending hch
      obtain rfl := Option.some.inj h
      exact .ignoreUnloaded hpending hch
    · cases h
  | schedule => exact Scheduler.schedule_step h
  | needsReload differs => exact Scheduler.needsReload_step h
  | useLoadedRunner =>
    rw [apply, Scheduler.useLoadedRunner] at h
    split at h
    · rename_i q r hpending
      obtain ⟨hfree, h⟩ := Option.ite_none_left_eq_some.mp h
      obtain rfl := Option.some.inj h
      exact .useLoadedRunner hpending (not_not.mp hfree)
    · cases h
  | fit choice automatic => exact Scheduler.fit_step h
  | load ok => exact Scheduler.load_step h
  | findRunnerToUnload victim => exact Scheduler.findRunnerToUnload_step h
  | triggerExpire =>
    rw [apply, Scheduler.triggerExpire] at h
    split at h
    · rename_i q r hpending
      obtain ⟨hfree, h⟩ := Option.ite_none_left_eq_some.mp h
      obtain rfl := Option.some.inj h
      exact .triggerExpire hpending (not_not.mp hfree)
    · cases h
  | receiveUnloaded =>
    rw [apply, Scheduler.receiveUnloaded] at h
    split at h
    · rename_i q n hpending hch
      obtain rfl := Option.some.inj h
      exact .receiveUnloaded hpending hch
    · cases h
  | running r q ok => exact Scheduler.running_step h
  | watch q =>
    obtain ⟨hmem, h⟩ := Option.ite_none_left_eq_some.mp h
    obtain rfl := Option.some.inj h
    exact .watch (not_not.mp hmem)
  | requeue q =>
    obtain ⟨hmem, h⟩ := Option.ite_none_left_eq_some.mp h
    obtain rfl := Option.some.inj h
    exact .requeue (not_not.mp hmem)
  | retry r =>
    obtain ⟨hmem, h⟩ := Option.ite_none_left_eq_some.mp h
    obtain rfl := Option.some.inj h
    exact .retry (not_not.mp hmem)
  | timerFires r =>
    obtain ⟨htimer, h⟩ := Option.ite_none_left_eq_some.mp h
    obtain rfl := Option.some.inj h
    exact .timerFires (not_not.mp htimer)
  | timerExpires r =>
    obtain ⟨hfired, h⟩ := Option.ite_none_left_eq_some.mp h
    obtain rfl := Option.some.inj h
    rw [not_or, not_not, not_not] at hfired
    exact .timerExpires hfired.1 hfired.2
  | expireRunner path =>
    rw [apply, Scheduler.expireRunner] at h
    split at h
    · rename_i hnone
      obtain rfl := Option.some.inj h
      exact .nothingToExpire hnone
    · rename_i r hloaded
      obtain rfl := Option.some.inj h
      exact .expireRunner hloaded
  | expireRunnerNow r =>
    obtain ⟨hcall, h⟩ := Option.ite_none_left_eq_some.mp h
    obtain rfl := Option.some.inj h
    rw [not_or, not_not, not_not] at hcall
    exact .expireRunnerNow hcall.1 hcall.2
  | receiveFinished => exact Scheduler.receiveFinished_step h
  | finish => exact Scheduler.finish_step h
  | receiveExpired => exact Scheduler.receiveExpired_step h
  | unloadExpired => exact Scheduler.unloadExpired_step h
  | recovered =>
    rw [apply, Scheduler.recovered] at h
    split at h
    · rename_i r hcompleted
      obtain rfl := Option.some.inj h
      exact .recovered hcompleted
    · cases h

end

end Ecco9.Sched
