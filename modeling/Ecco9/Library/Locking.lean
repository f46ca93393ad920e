import Ecco9.Library.Runs

/-! Procedures that threads run, one operation at a time, under one reader-writer mutex that is not
reentrant. -/

namespace Ecco9.Library

inductive Mode
  | read
  | write
  deriving DecidableEq

/-- A procedure with the state `σ` under the mutex, answers `τ` from outside and results `ρ`. -/
inductive Procedure (σ τ ρ : Type)
  | done (r : ρ)
  | ask (next : τ → Procedure σ τ ρ)
  | lock (mode : Mode) (next : Procedure σ τ ρ)
  | unlock (next : Procedure σ τ ρ)
  /-- The state is read and written. -/
  | act (f : σ → σ) (next : σ → Procedure σ τ ρ)

namespace Procedure

variable {σ τ ρ α β : Type}

protected def bind : Procedure σ τ α → (α → Procedure σ τ β) → Procedure σ τ β
  | .done a, k => k a
  | .ask next, k => .ask fun t => (next t).bind k
  | .lock mode next, k => .lock mode (next.bind k)
  | .unlock next, k => .unlock (next.bind k)
  | .act f next, k => .act f fun s => (next s).bind k

instance : Monad (Procedure σ τ) where
  pure := .done
  bind := .bind

def answer : Procedure σ τ τ := .ask .done

def state : Procedure σ τ σ := .act id .done

def update (f : σ → σ) : Procedure σ τ Unit := .act f fun _ => .done ()

/-- A loop over a list. -/
def each (f : α → Procedure σ τ Unit) : List α → Procedure σ τ Unit
  | [] => .done ()
  | a :: l => (f a).bind fun _ => each f l

/-- The body under the mutex, which is released when it is left. -/
def guarded (mode : Mode) (body : Procedure σ τ ρ) : Procedure σ τ ρ :=
  .lock mode (body.bind fun r => .unlock (.done r))

/-! ### What a procedure ends with -/

/-- While nobody else can write, the state is still the same. -/
def Steady (held : Option Mode) (s s' : σ) : Prop := held = some .write → s' = s

theorem Steady.refl (held : Option Mode) (s : σ) : Steady held s s := fun _ => rfl

/-- From a state, holding the mutex or not, and with the state in which it was last taken: the mutex
is asked for only when it is not held, the state is touched only when it is, and in the end `Q`. -/
def Meets (Q : Option Mode → σ → ρ → σ → Prop) : Option Mode → σ → Procedure σ τ ρ → σ → Prop
  | held, entry, .done r, s => Q held entry r s
  | held, entry, .ask next, s => ∀ t s', Steady held s s' → Meets Q held entry (next t) s'
  | held, _, .lock mode next, _ => held = none ∧ ∀ s, Meets Q (some mode) s next s
  | held, entry, .unlock next, s => held ≠ none ∧ ∀ s', Steady held s s' → Meets Q none entry next s'
  | held, entry, .act f next, s =>
    held ≠ none ∧ ∀ s', Steady held s s' → Meets Q held entry (next s') (f s')

variable {Q : Option Mode → σ → β → σ → Prop} {held : Option Mode} {entry s : σ}

theorem Meets.bind {p : Procedure σ τ α} {k : α → Procedure σ τ β}
    (h : Meets (fun held entry a s => Meets Q held entry (k a) s) held entry p s) :
    Meets Q held entry (p.bind k) s := by
  induction p generalizing held entry s with
  | done a => exact h
  | ask next ih => exact fun t s' steady => ih t (h t s' steady)
  | lock mode next ih => exact ⟨h.1, fun s => ih (h.2 s)⟩
  | unlock next ih => exact ⟨h.1, fun s' steady => ih (h.2 s' steady)⟩
  | act f next ih => exact ⟨h.1, fun s' steady => ih s' (h.2 s' steady)⟩

theorem Meets.map {f : α → β} {p : Procedure σ τ α}
    (h : Meets (fun held entry a s => Q held entry (f a) s) held entry p s) :
    Meets Q held entry (f <$> p) s := Meets.bind h

theorem Meets.mono {Q' : Option Mode → σ → β → σ → Prop} {p : Procedure σ τ β}
    (h : Meets Q held entry p s) (imp : ∀ held entry r s, Q held entry r s → Q' held entry r s) :
    Meets Q' held entry p s := by
  induction p generalizing held entry s with
  | done r => exact imp _ _ _ _ h
  | ask next ih => exact fun t s' steady => ih t (h t s' steady)
  | lock mode next ih => exact ⟨h.1, fun s => ih (h.2 s)⟩
  | unlock next ih => exact ⟨h.1, fun s' steady => ih (h.2 s' steady)⟩
  | act f next ih => exact ⟨h.1, fun s' steady => ih s' (h.2 s' steady)⟩

/-- The mutex is neither taken nor released. -/
def Plain : Procedure σ τ ρ → Prop
  | .done _ => True
  | .ask next => ∀ t, (next t).Plain
  | .act _ next => ∀ s, (next s).Plain
  | .lock _ _ | .unlock _ => False

theorem Plain.bind {p : Procedure σ τ α} {k : α → Procedure σ τ β} (hp : p.Plain)
    (hk : ∀ a, (k a).Plain) : (p.bind k).Plain := by
  induction p with
  | done a => exact hk a
  | ask next ih => exact fun t => ih t (hp t)
  | act f next ih => exact fun s => ih s (hp s)
  | lock => exact hp
  | unlock => exact hp

theorem Plain.meets {p : Procedure σ τ β} (h : p.Plain) (hheld : held ≠ none) :
    Meets (fun held' _ _ _ => held' = held) held entry p s := by
  induction p generalizing s with
  | done r => rfl
  | ask next ih => exact fun t s' _ => ih t (h t)
  | act f next ih => exact ⟨hheld, fun s' _ => ih s' (h s')⟩
  | lock => exact h.elim
  | unlock => exact h.elim

/-- An invariant that speaks of the turns made so far. -/
theorem Meets.each {f : α → Procedure σ τ Unit} {I : List α → σ → Prop}
    (h : ∀ a done s, I done s →
      Meets (fun held' entry' _ s => held' = held ∧ entry' = entry ∧ I (done ++ [a]) s) held entry (f a) s)
    (l : List α) (hs : I [] s) :
    Meets (fun held' entry' _ s => held' = held ∧ entry' = entry ∧ I l s) held entry (each f l) s := by
  suffices ∀ todo done s, I done s → Meets (fun held' entry' _ s =>
      held' = held ∧ entry' = entry ∧ I (done ++ todo) s) held entry (Procedure.each f todo) s from
    this l [] s hs
  intro todo
  induction todo with
  | nil => exact fun done s hs => ⟨rfl, rfl, (List.append_nil done).symm ▸ hs⟩
  | cons a todo ih =>
    intro done s hs
    refine Meets.bind ((h a done s hs).mono ?_)
    rintro _ _ _ s ⟨rfl, rfl, hs⟩
    rw [List.append_cons]
    exact ih (done ++ [a]) s hs

/-! ### The operations one after another -/

@[simp] theorem plain_pure (r : ρ) : (pure r : Procedure σ τ ρ).Plain := trivial

@[simp] theorem plain_update (f : σ → σ) : (update f : Procedure σ τ Unit).Plain := fun _ => trivial

@[simp] theorem plain_update_bind {f : σ → σ} {k : Unit → Procedure σ τ β} :
    (update f >>= k).Plain ↔ σ → (k ()).Plain := Iff.rfl

@[simp] theorem plain_answer_bind {k : τ → Procedure σ τ β} :
    (answer >>= k).Plain ↔ ∀ t, (k t).Plain := Iff.rfl

@[simp] theorem plain_state_bind {k : σ → Procedure σ τ β} :
    (state >>= k).Plain ↔ ∀ s, (k s).Plain := Iff.rfl

@[simp] theorem meets_pure {r : β} :
    Meets Q held entry (pure r : Procedure σ τ β) s ↔ Q held entry r s := Iff.rfl

@[simp] theorem meets_update_bind {f : σ → σ} {k : Unit → Procedure σ τ β} :
    Meets Q (some .write) entry (update f >>= k) s ↔ Meets Q (some .write) entry (k ()) (f s) :=
  ⟨fun h => h.2 s (.refl _ _), fun h => ⟨Option.some_ne_none _, fun _ steady => steady rfl ▸ h⟩⟩

@[simp] theorem meets_update {f : σ → σ} {Q : Option Mode → σ → Unit → σ → Prop} :
    Meets Q (some .write) entry (update f : Procedure σ τ Unit) s ↔ Q (some .write) entry () (f s) :=
  meets_update_bind

@[simp] theorem meets_answer_bind {k : τ → Procedure σ τ β} :
    Meets Q (some .write) entry (answer >>= k) s ↔ ∀ t, Meets Q (some .write) entry (k t) s :=
  ⟨fun h t => h t s (.refl _ _), fun h t _ steady => steady rfl ▸ h t⟩

@[simp] theorem meets_state_bind {k : σ → Procedure σ τ β} :
    Meets Q (some .write) entry (state >>= k) s ↔ Meets Q (some .write) entry (k s) s :=
  ⟨fun h => h.2 s (.refl _ _), fun h => ⟨Option.some_ne_none _, fun _ steady => steady rfl ▸ h⟩⟩

/-- What a guarded procedure is left with holds when the mutex is released. -/
theorem Meets.guarded {mode : Mode} {body : Procedure σ τ β}
    (h : ∀ s, Meets (fun held entry r s => held = some mode ∧
      ∀ s', Steady held s s' → Q none entry r s') (some mode) s body s) :
    Meets Q none entry (guarded mode body) s := by
  refine ⟨rfl, fun s => Meets.bind ((h s).mono ?_)⟩
  rintro held entry r s ⟨rfl, hr⟩
  exact ⟨Option.some_ne_none mode, hr⟩

/-- A guarded procedure can be called by whoever does not hold the mutex. -/
theorem Plain.guarded {mode : Mode} {body : Procedure σ τ β} (h : body.Plain) :
    Meets (fun held _ _ _ => held = none) none entry (guarded mode body) s :=
  Meets.guarded fun _ => (h.meets (Option.some_ne_none mode)).mono fun _ _ _ _ hheld =>
    ⟨hheld, fun _ _ => rfl⟩

end Procedure

/-! ### Threads -/

section

/-- A thread in a call. -/
structure Thread (κ σ τ ρ : Type) where
  call : κ
  held : Option Mode := none
  /-- the state in which the mutex was last taken -/
  entry : σ
  code : Procedure σ τ ρ

structure Machine (κ σ τ ρ : Type) where
  shared : σ
  threads : List (Thread κ σ τ ρ) := []

inductive Act (κ τ : Type)
  | call (c : κ)
  | run (i : Nat) (answer : τ)

/-- What can be called, and in which states. -/
structure Service (κ σ τ ρ : Type) where
  procedure : κ → Procedure σ τ ρ
  offered : σ → κ → Bool

variable {κ σ τ ρ : Type}

/-- The thread asks for the mutex that it holds itself. -/
def Thread.locksItself (t : Thread κ σ τ ρ) : Bool :=
  match t.code with
  | .lock _ _ => t.held.isSome
  | _ => false

/-- The next operation of a thread. -/
def Thread.next (t : Thread κ σ τ ρ) (free : Mode → Bool) (s : σ) (answer : τ) :
    Option (σ × Thread κ σ τ ρ) :=
  match t.code with
  | .done _ => none
  | .ask next => some (s, { t with code := next answer })
  | .lock mode next =>
    if t.held = none ∧ free mode then some (s, { t with held := some mode, entry := s, code := next })
    else none
  | .unlock next => some (s, { t with held := none, code := next })
  | .act f next => some (f s, { t with code := next s })

namespace Machine

def free (m : Machine κ σ τ ρ) : Mode → Bool
  | .read => m.threads.all fun t => t.held ≠ some .write
  | .write => m.threads.all fun t => t.held = none

def step (D : Service κ σ τ ρ) (m : Machine κ σ τ ρ) : Act κ τ → Option (Machine κ σ τ ρ)
  | .call c =>
    if D.offered m.shared c then
      some { m with threads := m.threads ++ [{ call := c, entry := m.shared, code := D.procedure c }] }
    else none
  | .run i answer => do
    let t ← m.threads[i]?
    let (s, t) ← t.next m.free m.shared answer
    return ⟨s, m.threads.set i t⟩

end Machine

/-- The thread is on the way to what its call ends with. -/
def Thread.OnTheWay (Post : κ → σ → ρ → σ → Prop) (shared : σ) (t : Thread κ σ τ ρ) : Prop :=
  ∃ s, Procedure.Steady t.held s shared ∧
    Procedure.Meets (fun held entry r s => held = none ∧ Post t.call entry r s) t.held t.entry t.code s

variable {Post : κ → σ → ρ → σ → Prop} {t t' : Thread κ σ τ ρ} {s s' : σ}

theorem Thread.OnTheWay.not_locksItself (h : t.OnTheWay Post s) : t.locksItself = false := by
  obtain ⟨s', -, meets⟩ := h
  rw [Thread.locksItself]
  cases hcode : t.code with
  | lock mode next =>
    rw [hcode] at meets
    simp [meets.1]
  | _ => rfl

theorem Thread.OnTheWay.next {free : Mode → Bool} {answer : τ} (h : t.OnTheWay Post s)
    (hnext : t.next free s answer = some (s', t')) :
    t'.OnTheWay Post s' ∧ t'.call = t.call ∧ (∀ r, t'.code = .done r → Post t.call t'.entry r s') := by
  obtain ⟨s₀, steady, meets⟩ := h
  suffices key : t'.call = t.call ∧ Procedure.Meets (fun held entry r s =>
      held = none ∧ Post t.call entry r s) t'.held t'.entry t'.code s' by
    obtain ⟨same, meets⟩ := key
    refine ⟨⟨s', .refl _ _, same ▸ meets⟩, same, fun r hr => ?_⟩
    rw [hr] at meets
    exact meets.2
  rw [Thread.next] at hnext
  cases hcode : t.code with
  | done r =>
    rw [hcode] at hnext
    cases hnext
  | ask next =>
    rw [hcode] at hnext meets
    cases hnext
    exact ⟨rfl, meets answer s steady⟩
  | lock mode next =>
    rw [hcode] at hnext meets
    dsimp only at hnext
    split_ifs at hnext
    cases hnext
    exact ⟨rfl, meets.2 s⟩
  | unlock next =>
    rw [hcode] at hnext meets
    cases hnext
    exact ⟨rfl, meets.2 s steady⟩
  | act f next =>
    rw [hcode] at hnext meets
    cases hnext
    exact ⟨rfl, meets.2 s steady⟩

/-- Only a thread that holds the mutex touches the state. -/
theorem Thread.OnTheWay.shared_eq {free : Mode → Bool} {answer : τ} (h : t.OnTheWay Post s)
    (hheld : t.held = none) (hnext : t.next free s answer = some (s', t')) : s' = s := by
  obtain ⟨s₀, -, meets⟩ := h
  rw [Thread.next] at hnext
  cases hcode : t.code with
  | act f next =>
    rw [hcode] at meets
    exact absurd hheld meets.1
  | lock mode next =>
    rw [hcode] at hnext
    dsimp only at hnext
    split_ifs at hnext
    cases hnext
    rfl
  | _ =>
    rw [hcode] at hnext
    cases hnext <;> rfl

/-- What others do to the state does not matter to those who cannot rely on it. -/
theorem Thread.OnTheWay.others (h : t.OnTheWay Post s) (same : Procedure.Steady t.held s s') :
    t.OnTheWay Post s' := by
  obtain ⟨s₀, steady, meets⟩ := h
  exact ⟨s₀, fun hwrite => (same hwrite).trans (steady hwrite), meets⟩

/-- Of two threads not one holds the mutex to write while the other holds it. -/
def Thread.Apart (t u : Thread κ σ τ ρ) : Prop :=
  (t.held = some .write → u.held = none) ∧ (u.held = some .write → t.held = none)

theorem Thread.Apart.symm {u : Thread κ σ τ ρ} (h : t.Apart u) : u.Apart t := ⟨h.2, h.1⟩

namespace Machine

variable {D : Service κ σ τ ρ} {m m' : Machine κ σ τ ρ}

structure Orderly (Post : κ → σ → ρ → σ → Prop) (m : Machine κ σ τ ρ) : Prop where
  onTheWay : ∀ t ∈ m.threads, t.OnTheWay Post m.shared
  apart : m.threads.Pairwise Thread.Apart

theorem free_apart {u : Thread κ σ τ ρ} {mode : Mode} (hfree : m.free mode) (hu : u ∈ m.threads)
    (hheld : t.held = some mode) : t.Apart u := by
  cases mode with
  | read =>
    have hall := List.all_eq_true.mp hfree u hu
    refine ⟨fun hwrite => ?_, fun hwrite => ?_⟩
    · simp [hheld] at hwrite
    · simp [hwrite] at hall
  | write =>
    have hall := List.all_eq_true.mp hfree u hu
    refine ⟨fun _ => by simpa using hall, fun hwrite => ?_⟩
    simp [hwrite] at hall

/-- After its step a thread is still apart from the others. -/
theorem next_apart {u : Thread κ σ τ ρ} {answer : τ} (hu : u ∈ m.threads)
    (hnext : t.next m.free s answer = some (s', t')) (h : t.Apart u) : t'.Apart u := by
  rw [Thread.next] at hnext
  cases hcode : t.code with
  | done r =>
    rw [hcode] at hnext
    cases hnext
  | lock mode next =>
    rw [hcode] at hnext
    dsimp only at hnext
    split_ifs at hnext with hfree
    cases hnext
    exact free_apart hfree.2 hu rfl
  | unlock next =>
    rw [hcode] at hnext
    cases hnext
    exact ⟨fun hwrite => (Option.some_ne_none _ hwrite.symm).elim, fun _ => rfl⟩
  | _ =>
    rw [hcode] at hnext
    cases hnext
    exact h

theorem Orderly.call (h : m.Orderly Post) {c : κ}
    (meets : ∀ s, Procedure.Meets (fun held entry r s => held = none ∧ Post c entry r s) none s
      (D.procedure c) s) (hstep : m.step D (.call c) = some m') : m'.Orderly Post := by
  rw [step] at hstep
  split_ifs at hstep
  obtain rfl := Option.some.inj hstep
  constructor
  · intro t ht
    rcases List.mem_append.mp ht with ht | ht
    · exact h.onTheWay t ht
    · obtain rfl := List.mem_singleton.mp ht
      exact ⟨m.shared, .refl _ _, meets m.shared⟩
  · refine List.pairwise_append.mpr ⟨h.apart, List.pairwise_singleton .., fun t _ u hu => ?_⟩
    obtain rfl := List.mem_singleton.mp hu
    exact ⟨fun _ => rfl, fun hwrite => (Option.some_ne_none _ hwrite.symm).elim⟩

theorem step_run {i : Nat} {answer : τ} (hstep : m.step D (.run i answer) = some m') :
    ∃ t t' s, m.threads[i]? = some t ∧ t.next m.free m.shared answer = some (s, t') ∧
      m' = ⟨s, m.threads.set i t'⟩ := by
  simp only [step, Option.bind_eq_bind, Option.bind_eq_some_iff, Option.pure_def] at hstep
  obtain ⟨t, ht, ⟨s, t'⟩, hnext, heq⟩ := hstep
  exact ⟨t, t', s, ht, hnext, (Option.some.inj heq).symm⟩

theorem Orderly.run (h : m.Orderly Post) {i : Nat} {answer : τ}
    (hstep : m.step D (.run i answer) = some m') : m'.Orderly Post := by
  obtain ⟨t, t', s, ht, hnext, rfl⟩ := step_run hstep
  obtain ⟨before, after, hthreads, -, hset⟩ := exists_party ht
  rw [hset]
  have hmem : t ∈ m.threads := List.mem_of_getElem? ht
  have honTheWay := h.onTheWay t hmem
  have happart := h.apart
  rw [hthreads] at happart
  obtain ⟨-, hright, hcross⟩ := List.pairwise_append.mp happart
  have hbefore : ∀ u ∈ before, u ∈ m.threads ∧ t.Apart u := fun u hu =>
    ⟨by simp [hthreads, hu], (hcross u hu t List.mem_cons_self).symm⟩
  have hafter : ∀ u ∈ after, u ∈ m.threads ∧ t.Apart u := fun u hu =>
    ⟨by simp [hthreads, hu], (List.pairwise_cons.mp hright).1 u hu⟩
  constructor
  · have other : ∀ u ∈ m.threads, t.Apart u → u.OnTheWay Post s := fun u hu hapart =>
      (h.onTheWay u hu).others fun hwrite => honTheWay.shared_eq (hapart.2 hwrite) hnext
    intro u hu
    rcases List.mem_append.mp hu with hu | hu
    · exact other u (hbefore u hu).1 (hbefore u hu).2
    · rcases List.mem_cons.mp hu with rfl | hu
      · exact (honTheWay.next hnext).1
      · exact other u (hafter u hu).1 (hafter u hu).2
  · exact pairwise_place happart
      (fun u hu happart => (next_apart (hbefore u hu).1 hnext happart.symm).symm)
      (fun u hu happart => next_apart (hafter u hu).1 hnext happart)

/-- In a run of calls that ask for the mutex only when they do not hold it, no thread locks itself,
and each call is left with what it ends with. -/
theorem run_orderly {shared : σ} {acts : List (Act κ τ)}
    (meets : ∀ c, .call c ∈ acts → ∀ s, Procedure.Meets
      (fun held entry r s => held = none ∧ Post c entry r s) none s (D.procedure c) s)
    (hrun : acts.foldlM (step D) ⟨shared, []⟩ = some m) : m.Orderly Post := by
  refine foldlM_invariant (fun m m' act hact h hstep => ?_) hrun ⟨by simp, .nil⟩
  cases act with
  | call c => exact h.call (meets c hact) hstep
  | run i answer => exact h.run hstep

theorem Orderly.not_locksItself (h : m.Orderly Post) : ∀ t ∈ m.threads, t.locksItself = false :=
  fun t ht => (h.onTheWay t ht).not_locksItself

theorem Orderly.returned (h : m.Orderly Post) {i : Nat} {answer : τ} {r : ρ}
    (hstep : m.step D (.run i answer) = some m') (ht : m'.threads[i]? = some t)
    (hcode : t.code = .done r) : Post t.call t.entry r m'.shared := by
  obtain ⟨u, t', s, hu, hnext, rfl⟩ := step_run hstep
  obtain ⟨-, same, post⟩ := (h.onTheWay u (List.mem_of_getElem? hu)).next hnext
  rw [List.getElem?_set_self (List.getElem?_eq_some_iff.mp hu).1] at ht
  obtain rfl := Option.some.inj ht
  rw [same]
  exact post r hcode

/-! ### A thread that locks itself -/

theorem step_stuck {i : Nat} (ht : m.threads[i]? = some t) (hlocks : t.locksItself) {act : Act κ τ}
    (hstep : m.step D act = some m') : m'.threads[i]? = some t := by
  have hi := (List.getElem?_eq_some_iff.mp ht).1
  cases act with
  | call c =>
    rw [step] at hstep
    split_ifs at hstep
    obtain rfl := Option.some.inj hstep
    rw [List.getElem?_append_left hi, ht]
  | run j answer =>
    obtain ⟨u, t', s, hu, hnext, rfl⟩ := step_run hstep
    have hne : j ≠ i := by
      rintro rfl
      obtain rfl := Option.some.inj (ht.symm.trans hu)
      rw [Thread.locksItself] at hlocks
      rw [Thread.next] at hnext
      cases hcode : t.code with
      | lock mode next =>
        rw [hcode] at hlocks hnext
        dsimp only at hlocks hnext
        split_ifs at hnext with hfree
        rw [hfree.1] at hlocks
        cases hlocks
      | _ =>
        rw [hcode] at hlocks
        cases hlocks
    rw [List.getElem?_set_ne hne, ht]

/-- It stays where it is, and nobody gets the mutex any more that it holds to write. -/
theorem run_stuck {i : Nat} (ht : m.threads[i]? = some t) (hlocks : t.locksItself)
    (hheld : t.held = some .write) {acts : List (Act κ τ)}
    (hrun : acts.foldlM (step D) m = some m') :
    m'.threads[i]? = some t ∧ ∀ mode, m'.free mode = false := by
  have stays := foldlM_invariant (fun _ _ _ _ hm hstep => step_stuck hm hlocks hstep) hrun ht
  refine ⟨stays, fun mode => ?_⟩
  have hmem := List.mem_of_getElem? stays
  cases mode with
  | read => exact List.all_eq_false.mpr ⟨t, hmem, by simp [hheld]⟩
  | write => exact List.all_eq_false.mpr ⟨t, hmem, by simp [hheld]⟩

end Machine

end

end Ecco9.Library
