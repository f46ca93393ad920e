import Ecco9.Sched.Population

/-! The requests that were sent a runner: it is loaded until their finished events are processed, where
it still was when they were sent it. -/

namespace Ecco9.Sched

open Ecco9.Library

/-- The request and the runner of its path, when it may get that one. -/
def Pending.chosen : Pending → Option (LlmRequest × Nat)
  | found q r => some (q, r)
  | usable q r => some (q, r)
  | _ => none

/-- The request whose finished event is being processed. -/
def Completed.request : Completed → Option LlmRequest
  | finished q _ => some q
  | _ => none

/-- What `processCompleted` knows of the runner it has, between two steps. -/
def Completed.Holds (s : Scheduler) : Completed → Prop
  | waiting => True
  | finished q r => r ∈ s.loaded ∧ (s.runner r).modelPath = q.modelPath
  | expired r => s.refMu r = .completed ∧ (s.runner r).refCount = 0
  | recovering r => s.refMu r = .completed

/-- It still knows it when the runners stay loaded and nobody takes the one it has. -/
theorem Completed.Holds.mono {s t : Scheduler} {c : Completed} (h : c.Holds s)
    (hloaded : ∀ k ∈ s.loaded, k ∈ t.loaded ∧ (t.runner k).modelPath = (s.runner k).modelPath)
    (hown : ∀ k, c.runner = some k → s.refMu k = .completed →
      t.refMu k = .completed ∧ ((s.runner k).refCount = 0 → (t.runner k).refCount = 0)) :
    c.Holds t := by
  cases c with
  | waiting => trivial
  | finished q r =>
    obtain ⟨hmem, hpath⟩ := hloaded r h.1
    exact ⟨hmem, hpath.trans h.2⟩
  | expired r =>
    obtain ⟨hmu, hcount⟩ := hown r rfl h.1
    exact ⟨hmu, hcount h.2⟩
  | recovering r => exact (hown r rfl h).1

def Scheduler.grantsOf (s : Scheduler) (r : Nat) : Nat := s.granted.countP fun g => g.2 = r

structure Grants (s : Scheduler) : Prop where
  entry : ∀ g ∈ s.granted, g.2 ∈ s.loaded ∧ (s.runner g.2).modelPath = g.1.modelPath
  count : ∀ r, (s.runner r).refCount = s.grantsOf r
  /-- each grant has its finished event ahead -/
  events : ∀ q, s.granted.countP (fun g => g.1 = q) = s.watching.count q + s.finishedReqCh.count q +
    if s.completed.request = some q then 1 else 0
  loading : ∀ l ∈ s.loading,
    s.refMu l.1 = .load ∧ l.1 ∈ s.loaded ∧ (s.runner l.1).modelPath = l.2.modelPath
  once : (s.loading.map Prod.fst).Nodup
  chosen : ∀ q r, s.pending.chosen = some (q, r) → (s.runner r).modelPath = q.modelPath
  holds : s.completed.Holds s

theorem grants_start (maxRunners : Nat) (keepAlive : Int) : Grants { maxRunners, keepAlive } := by
  refine ⟨?_, ?_, ?_, ?_, ?_, ?_, trivial⟩
  · simp
  · intro r
    rfl
  · intro q
    rfl
  · simp
  · simp
  · simp [Pending.chosen]

/-- What the invariant speaks of, but for where the two loops are. -/
structure SameGrants (s s' : Scheduler) : Prop where
  loaded : s'.loaded = s.loaded
  granted : s'.granted = s.granted
  refMu : s'.refMu = s.refMu
  loading : s'.loading = s.loading
  path : ∀ r, (s'.runner r).modelPath = (s.runner r).modelPath
  refCount : ∀ r, (s'.runner r).refCount = (s.runner r).refCount
  events : ∀ q, s'.watching.count q + s'.finishedReqCh.count q =
    s.watching.count q + s.finishedReqCh.count q

theorem SameGrants.refl (s : Scheduler) : SameGrants s s :=
  ⟨rfl, rfl, rfl, rfl, fun _ => rfl, fun _ => rfl, fun _ => rfl⟩

theorem SameGrants.setRunner {s s₁ : Scheduler} (same : SameGrants s s₁) (r : Nat)
    {f : RunnerRef → RunnerRef} (hpath : ∀ x, (f x).modelPath = x.modelPath)
    (hcount : ∀ x, (f x).refCount = x.refCount) : SameGrants s (s₁.setRunner r f) :=
  ⟨same.loaded, same.granted, same.refMu, same.loading,
    fun k => (s₁.setRunner_field (·.modelPath) r hpath k).trans (same.path k),
    fun k => (s₁.setRunner_field (·.refCount) r hcount k).trans (same.refCount k), same.events⟩

theorem SameGrants.congr {s s₁ s' : Scheduler} (same : SameGrants s s₁)
    (hloaded : s'.loaded = s₁.loaded) (hgranted : s'.granted = s₁.granted)
    (hrefMu : s'.refMu = s₁.refMu) (hloading : s'.loading = s₁.loading)
    (hrunner : s'.runner = s₁.runner) (hwatching : s'.watching = s₁.watching)
    (hfinished : s'.finishedReqCh = s₁.finishedReqCh) : SameGrants s s' := by
  refine ⟨hloaded.trans same.loaded, hgranted.trans same.granted, hrefMu.trans same.refMu,
    hloading.trans same.loading, ?_, ?_, ?_⟩
  · intro r
    rw [hrunner, same.path]
  · intro r
    rw [hrunner, same.refCount]
  · intro q
    rw [hwatching, hfinished, same.events]

theorem SameGrants.sendExpired {s s₁ : Scheduler} (same : SameGrants s s₁) (r : Nat) :
    SameGrants s (s₁.sendExpired r) := same.congr rfl rfl rfl rfl rfl rfl rfl

theorem SameGrants.expireNow {s s₁ : Scheduler} (same : SameGrants s s₁) (r : Nat) :
    SameGrants s (s₁.expireNow r) := by
  have stopped := same.setRunner r (f := fun x => { x.stopTimer with sessionDuration := 0 })
    (fun _ => rfl) (fun _ => rfl)
  rcases s₁.expireNow_cases r with h | h
  · rw [h]
    exact stopped
  · rw [h]
    exact stopped.sendExpired r

theorem SameGrants.holds {s s' : Scheduler} (same : SameGrants s s') {c : Completed}
    (h : c.Holds s) : c.Holds s' := by
  refine h.mono (fun k hk => ⟨by rwa [same.loaded], same.path k⟩) fun k _ hk => ⟨?_, fun hcount => ?_⟩
  · rw [same.refMu, hk]
  · rw [same.refCount, hcount]

theorem SameGrants.grants {s s' : Scheduler} (same : SameGrants s s') (h : Grants s)
    (hcompleted : s'.completed = s.completed)
    (hchosen : s'.pending.chosen = none ∨ s'.pending.chosen = s.pending.chosen) : Grants s' := by
  refine ⟨?_, ?_, ?_, ?_, ?_, ?_, ?_⟩
  · rw [same.granted, same.loaded]
    intro g hg
    rw [same.path]
    exact h.entry g hg
  · intro r
    rw [same.refCount, Scheduler.grantsOf, same.granted]
    exact h.count r
  · intro q
    rw [same.granted, hcompleted, same.events]
    exact h.events q
  · rw [same.loading, same.loaded, same.refMu]
    intro l hl
    rw [same.path]
    exact h.loading l hl
  · rw [same.loading]
    exact h.once
  · intro q r hqr
    rw [same.path]
    rcases hchosen with hnone | heq
    · rw [hnone] at hqr
      cases hqr
    · rw [heq] at hqr
      exact h.chosen q r hqr
  · rw [hcompleted]
    exact same.holds h.holds

/-- A step that changes only where `processPending` is, and what waits in other channels. -/
theorem Grants.congr {s s' : Scheduler} (h : Grants s) (hloaded : s'.loaded = s.loaded)
    (hgranted : s'.granted = s.granted) (hrefMu : s'.refMu = s.refMu)
    (hloading : s'.loading = s.loading) (hrunner : s'.runner = s.runner)
    (hwatching : s'.watching = s.watching) (hfinished : s'.finishedReqCh = s.finishedReqCh)
    (hcompleted : s'.completed = s.completed)
    (hchosen : s'.pending.chosen = none ∨ s'.pending.chosen = s.pending.chosen) : Grants s' :=
  ((SameGrants.refl s).congr hloaded hgranted hrefMu hloading hrunner hwatching hfinished).grants h
    hcompleted hchosen

theorem Grants.isLoaded {s : Scheduler} {q : LlmRequest} {r : Nat} (h : Grants s)
    (hloaded : s.loadedFor q.modelPath = some r) : Grants { s with pending := .found q r } := by
  refine { h with chosen := ?_ }
  intro q' r' hqr
  obtain ⟨rfl, rfl⟩ := Prod.mk.inj (Option.some.inj hqr)
  exact (Scheduler.loadedFor_some hloaded).2

/-! ### Grants -/

theorem countP_snoc {α : Type} (p : α → Bool) (l : List α) (a : α) :
    (l ++ [a]).countP p = l.countP p + if p a then 1 else 0 := by
  rw [List.countP_append, List.countP_singleton]

/-- A request that is sent a loaded runner of its path, whose `refCount` goes up by one. -/
theorem Grants.grant {s s₁ : Scheduler} {q : LlmRequest} {r : Nat} (h : Grants s)
    (hr : r ∈ s.loaded) (hpath : (s.runner r).modelPath = q.modelPath)
    (hloaded : s₁.loaded = s.loaded) (hgranted : s₁.granted = s.granted ++ [(q, r)])
    (hwatching : s₁.watching = s.watching ++ [q]) (hfinished : s₁.finishedReqCh = s.finishedReqCh)
    (hcompleted : s₁.completed = s.completed)
    (hpaths : ∀ k, (s₁.runner k).modelPath = (s.runner k).modelPath)
    (hcount : ∀ k, (s₁.runner k).refCount = (s.runner k).refCount + if r = k then 1 else 0)
    (hloading : ∀ l ∈ s₁.loading, l ∈ s.loading ∧ s₁.refMu l.1 = s.refMu l.1)
    (honce : (s₁.loading.map Prod.fst).Nodup)
    (hchosen : ∀ q r, s₁.pending.chosen = some (q, r) → s.pending.chosen = some (q, r))
    (hholds : s.completed.Holds s₁) : Grants s₁ := by
  refine ⟨?_, ?_, ?_, ?_, honce, ?_, by rw [hcompleted]; exact hholds⟩
  · rw [hgranted, hloaded]
    intro g hg
    rw [hpaths]
    rcases List.mem_append.mp hg with hg | hg
    · exact h.entry g hg
    · obtain rfl := List.mem_singleton.mp hg
      exact ⟨hr, hpath⟩
  · intro k
    rw [hcount, h.count k, Scheduler.grantsOf, Scheduler.grantsOf, hgranted, countP_snoc]
    simp
  · intro q'
    rw [hgranted, hwatching, hfinished, hcompleted, countP_snoc, h.events q', List.count_append]
    by_cases heq : q = q'
    · simp [heq]
      omega
    · simp [heq]
  · intro l hl
    obtain ⟨hmem, hmu⟩ := hloading l hl
    rw [hmu, hloaded, hpaths]
    exact h.loading l hmem
  · intro q' r' hqr
    rw [hpaths]
    exact h.chosen q' r' (hchosen q' r' hqr)

theorem Grants.useLoadedRunner {s : Scheduler} {q : LlmRequest} {r : Nat} (h : Grants s)
    (hpending : s.pending = .usable q r) (hmu : s.refMu r = .free) (hr : r ∈ s.loaded) :
    Grants { (s.setRunner r fun x => { x.stopTimer with
      refCount := x.refCount + 1
      sessionDuration := q.sessionDuration.getD x.sessionDuration }).grant q r with
      pending := .waiting } := by
  have hpath := h.chosen q r (by rw [hpending]; rfl)
  have hpaths := s.setRunner_field (·.modelPath) r (f := fun x => { x.stopTimer with
    refCount := x.refCount + 1, sessionDuration := q.sessionDuration.getD x.sessionDuration })
    fun _ => rfl
  have hfields (k : Nat) := s.runner_setRunner r (fun x => { x.stopTimer with
    refCount := x.refCount + 1, sessionDuration := q.sessionDuration.getD x.sessionDuration }) k
  refine h.grant hr hpath rfl rfl rfl rfl rfl hpaths ?_ (fun l hl => ⟨hl, rfl⟩) h.once nofun
    (h.holds.mono (fun k hk => ⟨hk, hpaths k⟩) fun k _ hk => ⟨hk, ?_⟩)
  · intro k
    refine (congrArg RunnerRef.refCount (hfields k)).trans ?_
    by_cases heq : k = r
    · rw [if_pos heq, if_pos heq.symm]
    · rw [if_neg heq, if_neg (Ne.symm heq)]
      rfl
  · have hne : k ≠ r := by
      rintro rfl
      rw [hk] at hmu
      cases hmu
    exact (congrArg RunnerRef.refCount ((hfields k).trans (if_neg hne))).trans

/-! ### Loads -/

theorem Grants.insert {s : Scheduler} {q : LlmRequest} (h : Grants s) (population : Population s)
    (known : Known s) (hnone : s.loadedFor q.modelPath = none) : Grants (s.insert q) := by
  have hloaded := Scheduler.loaded_insert hnone
  have hsub {r : Nat} (hr : r ∈ s.loaded) : r ∈ (s.insert q).loaded := by
    rw [hloaded]
    exact List.mem_append_left _ hr
  have hold {r : Nat} (hr : r ∈ s.loaded) : r ≠ s.created :=
    Nat.ne_of_lt (population.old r hr)
  have hrunner {r : Nat} (hr : r ∈ s.loaded) : (s.insert q).runner r = s.runner r := by
    rw [Scheduler.runner_insert, if_neg (hold hr)]
  have hmu {r : Nat} (hr : r ≠ s.created) : (s.insert q).refMu r = s.refMu r := if_neg hr
  refine ⟨?_, ?_, h.events, ?_, ?_, ?_, ?_⟩
  · intro g hg
    obtain ⟨hmem, hpath⟩ := h.entry g hg
    exact ⟨hsub hmem, by rw [hrunner hmem, hpath]⟩
  · intro r
    rw [Scheduler.runner_insert]
    split
    · -- nobody was sent the new runner
      rename_i heq
      symm
      rw [Scheduler.grantsOf, List.countP_eq_zero]
      intro g hg hgr
      have hmem := (h.entry g hg).1
      rw [of_decide_eq_true hgr, heq] at hmem
      exact hold hmem rfl
    · exact h.count r
  · intro l hl
    rcases List.mem_append.mp (hl : l ∈ s.loading ++ [(s.created, q)]) with hl | hl
    · obtain ⟨hfree, hmem, hpath⟩ := h.loading l hl
      exact ⟨by rw [hmu (hold hmem), hfree], hsub hmem, by rw [hrunner hmem, hpath]⟩
    · obtain rfl := List.mem_singleton.mp hl
      refine ⟨if_pos rfl, ?_, ?_⟩
      · rw [hloaded]
        simp
      · rw [Scheduler.runner_insert, if_pos rfl]
  · change ((s.loading ++ [(s.created, q)]).map Prod.fst).Nodup
    rw [List.map_append, List.nodup_append]
    refine ⟨h.once, by simp, ?_⟩
    intro a ha b hb heq
    obtain ⟨l, hl, rfl⟩ := List.mem_map.mp ha
    obtain rfl : b = s.created := by simpa using hb
    exact hold (h.loading l hl).2.1 heq
  · intro _ _ hqr
    cases hqr
  · refine h.holds.mono (fun k hk => ⟨hsub hk, by rw [hrunner hk]⟩) fun k hk hown => ?_
    have hne := Nat.ne_of_lt (known.runner k hk)
    exact ⟨(hmu hne).trans hown, fun hcount => by rwa [Scheduler.runner_insert, if_neg hne]⟩

/-- A goroutine of `load` ends, which has held the mutex of its runner from the start and is the only
one for it. -/
theorem Grants.loads {s : Scheduler} {r : Nat} {q : LlmRequest} (h : Grants s)
    (hmem : (r, q) ∈ s.loading) : ∀ l ∈ s.loading.erase (r, q), l ∈ s.loading ∧ l.1 ≠ r := by
  have hperm := List.perm_cons_erase hmem
  have honce := (hperm.map Prod.fst).nodup_iff.mp h.once
  rw [List.map_cons, List.nodup_cons] at honce
  intro l hl
  refine ⟨List.mem_of_mem_erase hl, fun heq => honce.1 ?_⟩
  rw [show (r, q).1 = l.1 from heq.symm]
  exact List.mem_map_of_mem hl

theorem Grants.once_erase {s : Scheduler} (h : Grants s) (l : Nat × LlmRequest) :
    ((s.loading.erase l).map Prod.fst).Nodup :=
  (List.erase_sublist.map Prod.fst).nodup h.once

theorem ne_of_owner {s : Scheduler} {r k : Nat} (hmu : s.refMu r = .load)
    (hk : s.refMu k = .completed) : k ≠ r := by
  rintro rfl
  rw [hk] at hmu
  cases hmu

/-- It gives up the mutex and sends the runner. -/
theorem Grants.running {s : Scheduler} {r : Nat} {q : LlmRequest} (h : Grants s)
    (hmem : (r, q) ∈ s.loading) :
    Grants (((({ s with loading := s.loading.erase (r, q) } : Scheduler).setRunner r fun x => { x with
      refCount := x.refCount + 1, loading := false }).grant q r).setRefMu r .free) := by
  obtain ⟨hmu, hr, hpath⟩ := h.loading (r, q) hmem
  have hpaths := s.setRunner_field (·.modelPath) r (f := fun x => { x with
    refCount := x.refCount + 1, loading := false }) fun _ => rfl
  have hfields (k : Nat) := s.runner_setRunner r (fun x => { x with
    refCount := x.refCount + 1, loading := false }) k
  refine h.grant hr hpath rfl rfl rfl rfl rfl hpaths ?_ ?_ (h.once_erase _) (fun _ _ hqr => hqr)
    (h.holds.mono (fun k hk => ⟨hk, hpaths k⟩) ?_)
  · intro k
    refine (congrArg RunnerRef.refCount (hfields k)).trans ?_
    by_cases heq : k = r
    · rw [if_pos heq, if_pos heq.symm]
    · rw [if_neg heq, if_neg (Ne.symm heq)]
      rfl
  · intro l hl
    obtain ⟨hold, hother⟩ := h.loads hmem l hl
    exact ⟨hold, if_neg hother⟩
  · intro k _ hk
    have hne := ne_of_owner hmu hk
    exact ⟨(if_neg hne).trans hk,
      (congrArg RunnerRef.refCount ((hfields k).trans (if_neg hne))).trans⟩

/-- It gives up the mutex of a runner that does not run. -/
theorem Grants.runningFails {s : Scheduler} {r : Nat} {q : LlmRequest} (h : Grants s)
    (hmem : (r, q) ∈ s.loading) :
    Grants ((({ s with loading := s.loading.erase (r, q) } : Scheduler).sendExpired r).setRefMu r
      .free) := by
  obtain ⟨hmu, -, -⟩ := h.loading (r, q) hmem
  refine ⟨h.entry, h.count, h.events, ?_, h.once_erase _, h.chosen,
    h.holds.mono (fun k hk => ⟨hk, rfl⟩) fun k _ hk => ⟨?_, id⟩⟩
  · intro l hl
    obtain ⟨hold, hother⟩ := h.loads hmem l hl
    exact ⟨(if_neg hother).trans (h.loading l hold).1, (h.loading l hold).2⟩
  · exact (if_neg (ne_of_owner hmu hk)).trans hk

/-! ### Goroutines -/

/-- A finished event moves from its goroutine to the channel. -/
theorem watch_count (s : Scheduler) {q : LlmRequest} (hmem : q ∈ s.watching) (q' : LlmRequest) :
    (s.watching.erase q).count q' + (s.finishedReqCh ++ [q]).count q' =
      s.watching.count q' + s.finishedReqCh.count q' := by
  have hpos : 0 < s.watching.count q := List.count_pos_iff.mpr hmem
  rw [List.count_append, List.count_erase]
  by_cases heq : q = q'
  · subst heq
    simp
    omega
  · simp [heq]

theorem Grants.watch {s : Scheduler} {q : LlmRequest} (h : Grants s) (hmem : q ∈ s.watching) :
    Grants { s with
      watching := s.watching.erase q, finishedReqCh := s.finishedReqCh ++ [q] } := by
  have same : SameGrants s { s with
      watching := s.watching.erase q, finishedReqCh := s.finishedReqCh ++ [q] } :=
    ⟨rfl, rfl, rfl, rfl, fun _ => rfl, fun _ => rfl, watch_count s hmem⟩
  exact same.grants h rfl (.inr rfl)

/-! ### `processCompleted` -/

/-- A request with a finished event ahead was sent a runner, which is loaded under its path. -/
theorem Grants.granted {s : Scheduler} (h : Grants s) {q : LlmRequest}
    (hq : 0 < s.granted.countP fun g => g.1 = q) :
    ∃ g ∈ s.granted, g.1 = q ∧ g.2 ∈ s.loaded ∧ (s.runner g.2).modelPath = q.modelPath := by
  obtain ⟨g, hg, heq⟩ := List.countP_pos_iff.mp hq
  obtain rfl := of_decide_eq_true heq
  exact ⟨g, hg, rfl, h.entry g hg⟩

/-- A runner of the path of a finished request is loaded. -/
theorem Grants.finishedLoaded {s : Scheduler} {q : LlmRequest} {rest : List LlmRequest}
    (h : Grants s) (hcompleted : s.completed = .waiting) (hch : s.finishedReqCh = q :: rest) :
    s.loadedFor q.modelPath ≠ none := by
  intro hnone
  have hevents := h.events
  rw [hch, hcompleted] at hevents
  have hpos : 0 < s.granted.countP fun g => g.1 = q := by
    rw [hevents q, List.count_cons_self]
    omega
  obtain ⟨g, -, -, hmem, hpath⟩ := h.granted hpos
  exact Scheduler.loadedFor_none hnone g.2 hmem hpath

theorem Grants.receiveFinished {s : Scheduler} {q : LlmRequest} {rest : List LlmRequest} {r : Nat}
    (h : Grants s) (hcompleted : s.completed = .waiting) (hch : s.finishedReqCh = q :: rest)
    (hloaded : s.loadedFor q.modelPath = some r) :
    Grants { s with finishedReqCh := rest, completed := .finished q r } := by
  have hevents := h.events
  rw [hch, hcompleted] at hevents
  refine { h with events := ?_, holds := Scheduler.loadedFor_some hloaded }
  intro q'
  rw [hevents q']
  by_cases heq : q = q'
  · simp [heq, Completed.request]
    omega
  · simp [heq, Completed.request]

/-- The grants without one of `q`, which is the one of `r`. -/
theorem eraseP_grants {l : List (LlmRequest × Nat)} {q : LlmRequest} {r : Nat}
    (hq : 0 < l.countP fun g => g.1 = q) (hr : ∀ g ∈ l, g.1 = q → g.2 = r) :
    (∀ g ∈ l.eraseP fun g => g.1 = q, g ∈ l) ∧
      (∀ k, (l.eraseP fun g => g.1 = q).countP (fun g => g.2 = k) + (if r = k then 1 else 0) =
        l.countP fun g => g.2 = k) ∧
      ∀ q', (l.eraseP fun g => g.1 = q).countP (fun g => g.1 = q') + (if q = q' then 1 else 0) =
        l.countP fun g => g.1 = q' := by
  obtain ⟨g, hg, heq⟩ := List.countP_pos_iff.mp hq
  obtain ⟨⟨q₀, r₀⟩, l₁, l₂, -, hfirst, rfl, herase⟩ :=
    List.exists_of_eraseP (p := fun g : LlmRequest × Nat => decide (g.1 = q)) hg heq
  obtain rfl : q₀ = q := of_decide_eq_true hfirst
  obtain rfl : r₀ = r := hr (q₀, r₀) (by simp) rfl
  refine ⟨fun g hg => List.mem_of_mem_eraseP hg, ?_, ?_⟩
  all_goals
    intro k
    rw [herase, List.countP_append, List.countP_append, List.countP_cons]
    simp
    omega

theorem Grants.finish {s : Scheduler} {q : LlmRequest} {r : Nat} (h : Grants s)
    (population : Population s) (hcompleted : s.completed = .finished q r) :
    Grants ((s.setRunner r RunnerRef.release).processed q) := by
  have hholds := h.holds
  have hevents := h.events
  rw [hcompleted] at hholds hevents
  have hpos : 0 < s.granted.countP fun g => g.1 = q := by
    rw [hevents q]
    simp [Completed.request]
  -- the runner that is found by its path is the one that was sent
  have hown (g : LlmRequest × Nat) (hg : g ∈ s.granted) (hq : g.1 = q) : g.2 = r := by
    obtain ⟨hmem, hpath⟩ := h.entry g hg
    exact population.distinct _ hmem _ hholds.1 (by rw [hpath, hq, hholds.2])
  obtain ⟨hsub, hcounts, hrequests⟩ := eraseP_grants hpos hown
  have hpaths := s.setRunner_field (·.modelPath) r (f := RunnerRef.release) (fun _ => rfl)
  refine ⟨?_, ?_, ?_, ?_, h.once, ?_, trivial⟩
  · intro g hg
    obtain ⟨hmem, hpath⟩ := h.entry g (hsub g hg)
    exact ⟨hmem, (hpaths g.2).trans hpath⟩
  · intro k
    have hk := hcounts k
    have hcount := h.count k
    rw [Scheduler.grantsOf] at hcount ⊢
    change ((s.setRunner r RunnerRef.release).runner k).refCount =
      (s.granted.eraseP fun g => g.1 = q).countP fun g => g.2 = k
    rw [Scheduler.runner_setRunner]
    by_cases heq : k = r
    · rw [if_pos heq, RunnerRef.release]
      rw [if_pos heq.symm] at hk
      dsimp only
      rw [if_neg (by omega)]
      omega
    · rw [if_neg heq]
      rw [if_neg (Ne.symm heq)] at hk
      omega
  · intro q'
    have hq' := hrequests q'
    have hev := hevents q'
    simp only [Completed.request, Option.some.injEq] at hev
    change (s.granted.eraseP fun g => g.1 = q).countP (fun g => g.1 = q') =
      s.watching.count q' + s.finishedReqCh.count q' + 0
    omega
  · intro l hl
    obtain ⟨hmu, hmem, hpath⟩ := h.loading l hl
    exact ⟨hmu, hmem, (hpaths l.1).trans hpath⟩
  · intro q' r' hqr
    exact (hpaths r').trans (h.chosen q' r' hqr)

theorem Grants.receiveExpired {s : Scheduler} {r : Nat} {rest : List Nat} (h : Grants s)
    (hcompleted : s.completed = .waiting) (hmu : s.refMu r = .free)
    (hidle : ¬(s.runner r).refCount > 0) :
    Grants { ({ s with expiredCh := rest } : Scheduler).setRefMu r .completed with
      completed := .expired r } := by
  refine ⟨h.entry, h.count, ?_, ?_, h.once, h.chosen, if_pos rfl, Nat.eq_zero_of_not_pos hidle⟩
  · intro q
    have := h.events q
    rw [hcompleted] at this
    exact this
  · intro l hl
    obtain ⟨hload, hmem, hpath⟩ := h.loading l hl
    have hne : l.1 ≠ r := by
      rintro rfl
      rw [hload] at hmu
      cases hmu
    exact ⟨(if_neg hne).trans hload, hmem, hpath⟩

/-- `processCompleted` gives up the mutex of the runner it has. -/
theorem Grants.released {s s₁ : Scheduler} {r : Nat} (h : Grants s)
    (hcompleted : s.completed = .expired r ∨ s.completed = .recovering r)
    (hloaded : s₁.loaded = s.loaded)
    (hgranted : s₁.granted = s.granted) (hwatching : s₁.watching = s.watching)
    (hfinished : s₁.finishedReqCh = s.finishedReqCh) (hloading : s₁.loading = s.loading)
    (hpending : s₁.pending = s.pending) (hwaiting : s₁.completed = .waiting)
    (hmus : ∀ k, k ≠ r → s₁.refMu k = s.refMu k)
    (hpaths : ∀ k, (s₁.runner k).modelPath = (s.runner k).modelPath)
    (hcounts : ∀ k, (s₁.runner k).refCount = (s.runner k).refCount) : Grants s₁ := by
  obtain ⟨hmu, hrequest⟩ : s.refMu r = .completed ∧ s.completed.request = none := by
    have hholds := h.holds
    rcases hcompleted with hc | hc
    · rw [hc] at hholds ⊢
      exact ⟨hholds.1, rfl⟩
    · rw [hc] at hholds ⊢
      exact ⟨hholds, rfl⟩
  refine ⟨?_, ?_, ?_, ?_, ?_, ?_, by rw [hwaiting]; trivial⟩
  · rw [hgranted, hloaded]
    intro g hg
    rw [hpaths]
    exact h.entry g hg
  · intro k
    rw [hcounts, Scheduler.grantsOf, hgranted]
    exact h.count k
  · intro q
    have := h.events q
    rw [hrequest] at this
    rw [hgranted, hwatching, hfinished, hwaiting]
    exact this
  · rw [hloading]
    intro l hl
    obtain ⟨hload, hmem, hpath⟩ := h.loading l hl
    have hne : l.1 ≠ r := by
      rintro rfl
      rw [hload] at hmu
      cases hmu
    rw [hmus _ hne, hloaded, hpaths]
    exact ⟨hload, hmem, hpath⟩
  · rw [hloading]
    exact h.once
  · rw [hpending]
    intro q k hqr
    rw [hpaths]
    exact h.chosen q k hqr

/-- The entry of the path is removed, and nobody has the runner. -/
theorem Grants.unloadExpired {s : Scheduler} {r : Nat} (h : Grants s) (population : Population s)
    (hcompleted : s.completed = .expired r) (hr : r ∈ s.loaded) :
    Grants { s.setRunner r RunnerRef.unload with
      loaded := s.loaded.filter fun k => (s.runner k).modelPath ≠ (s.runner r).modelPath
      completed := .recovering r } := by
  have hholds := h.holds
  rw [hcompleted] at hholds
  have hpaths := s.setRunner_field (·.modelPath) r (f := RunnerRef.unload) (fun _ => rfl)
  have hcounts := s.setRunner_field (·.refCount) r (f := RunnerRef.unload) (fun _ => rfl)
  have hkeep {k : Nat} (hk : k ∈ s.loaded) (hne : k ≠ r) :
      k ∈ s.loaded.filter fun k => (s.runner k).modelPath ≠ (s.runner r).modelPath := by
    rw [List.mem_filter, decide_eq_true_eq]
    exact ⟨hk, fun heq => hne (population.distinct k hk r hr heq)⟩
  have hgrants : s.grantsOf r = 0 := by rw [← h.count r, hholds.2]
  refine ⟨?_, ?_, ?_, ?_, h.once, ?_, hholds.1⟩
  · intro g hg
    obtain ⟨hmem, hpath⟩ := h.entry g hg
    have hne : g.2 ≠ r := by
      intro heq
      exact List.countP_eq_zero.mp hgrants g hg (decide_eq_true heq)
    exact ⟨hkeep hmem hne, (hpaths g.2).trans hpath⟩
  · intro k
    exact (hcounts k).trans (h.count k)
  · intro q
    have := h.events q
    rw [hcompleted] at this
    exact this
  · intro l hl
    obtain ⟨hload, hmem, hpath⟩ := h.loading l hl
    have hne : l.1 ≠ r := by
      intro heq
      rw [heq, hholds.1] at hload
      cases hload
    exact ⟨hload, hkeep hmem hne, (hpaths l.1).trans hpath⟩
  · intro q k hqr
    exact (hpaths k).trans (h.chosen q k hqr)

/-! ### Runs -/

/-- The runner that was found usable is still loaded when the request is sent it; and an expired event
does not take another runner for its own. -/
def Event.Safe (pid : Nat → Int) (s : Scheduler) : Event → Prop
  | useLoadedRunner => ∀ q r, s.pending = .usable q r → r ∈ s.loaded
  | unloadExpired => OwnPid pid s
  | _ => True

theorem Grants.step {pid : Nat → Int} {s s' : Scheduler} {e : Event} (h : Grants s)
    (population : Population s) (known : Known s) (safe : e.Safe pid s) (step : Step pid s e s') :
    Grants s' := by
  have rest := SameGrants.refl s
  cases step with
  | getRunner => exact h.congr rfl rfl rfl rfl rfl rfl rfl rfl (.inr rfl)
  | @receivePending cancelled =>
    refine h.congr rfl rfl rfl rfl rfl rfl rfl rfl (.inl ?_)
    cases cancelled <;> rfl
  | ignoreUnloaded => exact h.congr rfl rfl rfl rfl rfl rfl rfl rfl (.inr rfl)
  | isLoaded _ hloaded => exact h.isLoaded hloaded
  | isFull => exact h.congr rfl rfl rfl rfl rfl rfl rfl rfl (.inl rfl)
  | hasRoom => exact h.congr rfl rfl rfl rfl rfl rfl rfl rfl (.inl rfl)
  | needsReload => exact h.congr rfl rfl rfl rfl rfl rfl rfl rfl (.inl rfl)
  | isUsable hpending =>
    exact h.congr rfl rfl rfl rfl rfl rfl rfl rfl (.inr (by rw [hpending]; rfl))
  | useLoadedRunner hpending hfree =>
    exact h.useLoadedRunner hpending hfree (safe _ _ hpending)
  | fitFails => exact h.congr rfl rfl rfl rfl rfl rfl rfl rfl (.inl rfl)
  | fitLoads => exact h.congr rfl rfl rfl rfl rfl rfl rfl rfl (.inl rfl)
  | fitUnloads => exact h.congr rfl rfl rfl rfl rfl rfl rfl rfl (.inl rfl)
  | fitDelays => exact h.congr rfl rfl rfl rfl rfl rfl rfl rfl (.inl rfl)
  | loadFails => exact h.congr rfl rfl rfl rfl rfl rfl rfl rfl (.inl rfl)
  | load _ hnone => exact h.insert population known hnone
  | replace hpending hloaded =>
    rw [population.absent _ (by rw [hpending]; rfl)] at hloaded
    cases hloaded
  | nothingToUnload => exact h.congr rfl rfl rfl rfl rfl rfl rfl rfl (.inl rfl)
  | findRunnerToUnload => exact h.congr rfl rfl rfl rfl rfl rfl rfl rfl (.inl rfl)
  | @triggerExpire _ r =>
    exact SameGrants.grants ((rest.expireNow r).congr rfl rfl rfl rfl rfl rfl rfl) h
      (s.completed_expireNow r) (.inl rfl)
  | receiveUnloaded => exact h.congr rfl rfl rfl rfl rfl rfl rfl rfl (.inl rfl)
  | running hmem => exact h.running hmem
  | runningFails hmem => exact h.runningFails hmem
  | watch hmem => exact h.watch hmem
  | requeue => exact h.congr rfl rfl rfl rfl rfl rfl rfl rfl (.inr rfl)
  | retry => exact h.congr rfl rfl rfl rfl rfl rfl rfl rfl (.inr rfl)
  | @timerFires r =>
    have same := rest.setRunner r (f := fun x => { x with expireTimer := some false })
      (fun _ => rfl) (fun _ => rfl)
    exact SameGrants.grants (same.congr rfl rfl rfl rfl rfl rfl rfl) h rfl (.inr rfl)
  | @timerExpires r =>
    have same := rest.setRunner r (f := RunnerRef.stopTimer) (fun _ => rfl) (fun _ => rfl)
    exact SameGrants.grants (same.congr rfl rfl rfl rfl rfl rfl rfl) h rfl (.inr rfl)
  | nothingToExpire => exact h
  | expireRunner => exact h.congr rfl rfl rfl rfl rfl rfl rfl rfl (.inr rfl)
  | @expireRunnerNow r =>
    have same : SameGrants s { s with expireCalls := s.expireCalls.erase r } :=
      rest.congr rfl rfl rfl rfl rfl rfl rfl
    exact (same.expireNow r).grants h (Scheduler.completed_expireNow ..)
      (.inr (congrArg Pending.chosen (Scheduler.pending_expireNow ..)))
  | finishedUnloaded hcompleted hch hnone => exact absurd hnone (h.finishedLoaded hcompleted hch)
  | receiveFinished hcompleted hch hloaded => exact h.receiveFinished hcompleted hch hloaded
  | finishBusy hcompleted => exact h.finish population hcompleted
  | @finishNow q r hcompleted =>
    have finished := SameGrants.refl ((s.setRunner r RunnerRef.release).processed q)
    have same := finished.setRunner r (f := RunnerRef.stopTimer) (fun _ => rfl) (fun _ => rfl)
    exact (same.sendExpired r).grants (h.finish population hcompleted) rfl (.inr rfl)
  | @finishLater q r hcompleted =>
    have finished := SameGrants.refl ((s.setRunner r RunnerRef.release).processed q)
    have same := finished.setRunner r (f := fun x => { x with expireTimer := some true })
      (fun _ => rfl) (fun _ => rfl)
    exact same.grants (h.finish population hcompleted) rfl (.inr rfl)
  | expiredBusy => exact h.congr rfl rfl rfl rfl rfl rfl rfl rfl (.inr rfl)
  | receiveExpired hcompleted _ hfree hidle => exact h.receiveExpired hcompleted hfree hidle
  | @expiredUnloaded r hcompleted =>
    exact h.released (r := r) (.inl hcompleted) rfl rfl rfl rfl rfl rfl rfl (fun k hk => if_neg hk)
      (fun _ => rfl) (fun _ => rfl)
  | @expiredOrphan r k hcompleted =>
    exact h.released (r := r) (.inl hcompleted) rfl rfl rfl rfl rfl rfl rfl (fun k hk => if_neg hk)
      (s.setRunner_field (·.modelPath) r (f := RunnerRef.unload) (fun _ => rfl))
      (s.setRunner_field (·.refCount) r (f := RunnerRef.unload) (fun _ => rfl))
  | @unloadExpired r k hcompleted hloaded hpid =>
    obtain rfl := safe r k hcompleted hloaded hpid
    exact h.unloadExpired population hcompleted (Scheduler.loadedFor_some hloaded).1
  | @recovered r hcompleted =>
    exact h.released (r := r) (.inr hcompleted) rfl rfl rfl rfl rfl rfl rfl (fun k hk => if_neg hk)
      (fun _ => rfl) (fun _ => rfl)

/-- All that holds between the steps of a run. -/
structure Kept (s : Scheduler) : Prop where
  population : Population s
  known : Known s
  grants : Grants s

theorem Kept.step {pid : Nat → Int} {s s' : Scheduler} {e : Event} (h : Kept s)
    (safe : e.Safe pid s) (hs : e.apply pid s = some s') : Kept s' := by
  have step := Event.step hs
  have population := step.effect.population h.population fun heq => by
    subst heq
    exact safe
  exact ⟨population, h.known.step h.population.old step,
    h.grants.step h.population h.known safe step⟩

/-- In every state in which a step of the run is taken, it is safe. -/
def SafeRun (pid : Nat → Int) (maxRunners : Nat) (keepAlive : Int) (events : List Event) : Prop :=
  ∀ earlier e later s, events = earlier ++ e :: later →
    run pid maxRunners keepAlive earlier = some s → e.Safe pid s

/-- A runner that a request was sent is loaded, under the path of the request, and its llama server is
open; and its `refCount` is the number of requests it was sent to, until their finished events are
processed. -/
structure Scheduler.Honours (s : Scheduler) : Prop where
  loaded : ∀ g ∈ s.granted, s.loadedFor g.1.modelPath = some g.2
  alive : ∀ g ∈ s.granted, s.Alive g.2
  refCount : ∀ r, (s.runner r).refCount = s.grantsOf r

theorem Kept.honours {s : Scheduler} (h : Kept s) : s.Honours := by
  refine ⟨?_, ?_, h.grants.count⟩
  · intro g hg
    obtain ⟨hmem, hpath⟩ := h.grants.entry g hg
    cases hfor : s.loadedFor g.1.modelPath with
    | none => exact absurd hpath (Scheduler.loadedFor_none hfor g.2 hmem)
    | some r =>
      obtain ⟨hr, hrpath⟩ := Scheduler.loadedFor_some hfor
      rw [h.population.distinct r hr g.2 hmem (hrpath.trans hpath.symm)]
  · intro g hg
    exact (h.population.alive g.2).mpr (h.grants.entry g hg).1

/-- In every run of safe steps. -/
theorem run_grants {pid : Nat → Int} {maxRunners : Nat} {keepAlive : Int} {events : List Event}
    {s : Scheduler} (hrun : run pid maxRunners keepAlive events = some s)
    (safe : SafeRun pid maxRunners keepAlive events) : s.Honours := by
  have kept := foldlM_progress (I := fun done s => run pid maxRunners keepAlive done = some s ∧ Kept s)
    (fun done e later s s' hl ⟨hdone, kept⟩ hstep =>
      ⟨by
        rw [run, List.foldlM_append]
        rw [run] at hdone
        rw [hdone]
        simpa using hstep,
        kept.step (safe done e later s hl hdone) hstep⟩)
    hrun ⟨rfl, population_start _ _, known_start _ _, grants_start _ _⟩
  exact kept.2.honours

/-! ### A request and a timer -/

def first : LlmRequest := { modelPath := [1], sessionDuration := some 5 }

def second : LlmRequest := { modelPath := [1] }

/-- A model is loaded for a request. -/
def loadedFirst : List Event :=
  [.getRunner first, .receivePending false, .schedule, .fit .load 0, .load true,
    .running 0 first true]

/-- It is idle, and found usable for another request just before its timer fires. -/
def expiredBetween : List Event :=
  loadedFirst ++ [.watch first, .receiveFinished, .finish, .getRunner second, .receivePending false,
    .schedule, .needsReload false, .timerFires 0, .timerExpires 0, .receiveExpired, .unloadExpired,
    .recovered, .useLoadedRunner]

/-- The second request is sent a runner that was unloaded. -/
theorem expiredBetween_unloaded : ∃ s, run (fun r => r) 0 300 expiredBetween = some s ∧
    (second, 0) ∈ s.granted ∧ (s.runner 0).llama = false ∧ s.loadedFor second.modelPath = none := by
  refine ⟨_, rfl, ?_, rfl, rfl⟩
  decide

theorem loadedFirst_honours : ∃ s, run (fun r => r) 0 300 loadedFirst = some s ∧
    s.granted = [(first, 0)] ∧ s.Honours := by
  obtain ⟨s, hrun, hgranted⟩ : ∃ s, run (fun r => r) 0 300 loadedFirst = some s ∧
    s.granted = [(first, 0)] := ⟨_, rfl, rfl⟩
  refine ⟨s, hrun, hgranted, run_grants hrun ?_⟩
  intro earlier e later t hl _
  have he : e ∈ loadedFirst := by
    rw [hl]
    simp
  simp only [loadedFirst, List.mem_cons, List.not_mem_nil, or_false] at he
  rcases he with rfl | rfl | rfl | rfl | rfl | rfl
  all_goals trivial

end Ecco9.Sched
