import Ecco9.Drivers.Devices

/-! No device asks for the mutex that it holds, but the memory device in `Reset`. -/

namespace Ecco9.Drivers

open Ecco9.Library Procedure

/-- What a run of a device is to be like: from the state in which `Reset` last took the mutex to the
state with which it returns nil, its contents are cleared. -/
structure Sound {σ : Type} (D : Service Call σ Int Result) (Cleared : σ → σ → Prop) (device : σ)
    (acts : List (Act Call Int)) : Prop where
  unlocked : ∀ m, acts.foldlM (Machine.step D) ⟨device, []⟩ = some m →
    ∀ t ∈ m.threads, t.locksItself = false
  reset : ∀ m, acts.foldlM (Machine.step D) ⟨device, []⟩ = some m →
    ∀ m' i answer, m.step D (.run i answer) = some m' →
    ∀ t, m'.threads[i]? = some t → t.call = .reset → t.code = .done (.returned none) →
      Cleared t.entry m'.shared

/-- What a call ends with that may be a `Reset`. -/
def Ending {σ : Type} (Cleared : σ → σ → Prop) (c : Call) (entry : σ) (r : Result) (s : σ) : Prop :=
  c = .reset → r = .returned none → Cleared entry s

/-- It suffices that each call asks for the mutex only when it does not hold it. -/
theorem sound_of_meets {σ : Type} {D : Service Call σ Int Result} {Cleared : σ → σ → Prop} {device : σ}
    {acts : List (Act Call Int)}
    (h : ∀ c, .call c ∈ acts → ∀ s, Meets (fun held entry r s =>
      held = none ∧ Ending Cleared c entry r s) none s (D.procedure c) s) :
    Sound D Cleared device acts where
  unlocked _ hrun := (Machine.run_orderly h hrun).not_locksItself
  reset _ hrun _ _ _ hstep _ ht hcall hcode :=
    (Machine.run_orderly h hrun).returned hstep ht hcode hcall rfl

theorem meets_ending {σ : Type} {Cleared : σ → σ → Prop} {c : Call} {p : Code σ Result} {entry s : σ}
    (hc : c ≠ .reset) (h : Meets (fun held _ _ _ => held = none) none entry p s) :
    Meets (fun held entry r s => held = none ∧ Ending Cleared c entry r s) none entry p s :=
  h.mono fun _ _ _ _ hheld => ⟨hheld, fun hreset => absurd hreset hc⟩

/-! ### Memory -/

namespace MemoryDevice

def Cleared (_ md : MemoryDevice) : Prop := md.state.status = .ready ∧ md.nodes = [] ∧ md.edges = []

variable {status : MemoryDevice → Int → List UInt8} {entry md : MemoryDevice}

theorem meets_procedure {c : Call} (hc : c ≠ .reset) :
    Meets (fun held _ _ _ => held = none) none entry ((service status).procedure c) md := by
  cases c with
  | reset => exact absurd rfl hc
  | initializeDevice => exact (Plain.guarded (by simp [now])).map
  | shutdown => exact (Plain.guarded (by simp)).map
  | getState => exact (Plain.guarded (by simp [now])).map
  | setState state => exact (Plain.guarded (by simp)).map
  | read length => exact (Plain.guarded (by simp [now])).map
  | write buffer => exact (Plain.guarded (by simp [now])).map
  | getMetrics => exact (Plain.guarded (by simp)).map
  | getHealth => exact (Plain.guarded (by simp)).map
  | tick => exact (Plain.guarded (by simp [now])).map

theorem sound {device : MemoryDevice} {acts : List (Act Call Int)} (h : ∀ c, .call c ∈ acts → c ≠ .reset) :
    Sound (service status) Cleared device acts :=
  sound_of_meets fun c hc _ => meets_ending (h c hc) (meets_procedure (h c hc))

end MemoryDevice

/-! ### Reservoir -/

namespace ReservoirDevice

def Cleared (_ rd : ReservoirDevice) : Prop :=
  rd.state.status = .ready ∧ ∃ esr, rd.reservoir = some esr ∧ ∀ x ∈ esr.state, x = 0

variable {entry rd : ReservoirDevice}

theorem meets_initializeDevice : Meets (fun held entry err rd =>
    held = none ∧ (err = none → Cleared entry rd)) none entry initializeDevice rd := by
  refine Meets.guarded fun rd => ?_
  simp only [meets_update_bind, meets_state_bind, EchoStateReservoir.fill, now, meets_answer_bind,
    meets_pure, true_and, forall_const]
  rintro t t' rd' steady
  rw [steady rfl]
  exact ⟨rfl, _, rfl, fun x hx => List.eq_of_mem_replicate hx⟩

theorem meets_shutdown :
    Meets (fun held _ err _ => held = none ∧ err = none) none entry shutdown rd :=
  Meets.guarded fun _ => by simp

/-- `Reset` takes the mutex twice, one time after the other. -/
theorem meets_reset : Meets (fun held entry err rd =>
    held = none ∧ (err = none → Cleared entry rd)) none entry reset rd := by
  refine Meets.bind (meets_shutdown.mono ?_)
  rintro _ entry _ rd ⟨rfl, rfl⟩
  exact meets_initializeDevice

theorem meets_procedure {c : Call} (hc : c ≠ .reset) :
    Meets (fun held _ _ _ => held = none) none entry (service.procedure c) rd := by
  cases c with
  | reset => exact absurd rfl hc
  | initializeDevice => exact (meets_initializeDevice.mono fun _ _ _ _ h => h.1).map
  | shutdown => exact (meets_shutdown.mono fun _ _ _ _ h => h.1).map
  | getState => exact (Plain.guarded (by simp [now])).map
  | setState state => exact (Plain.guarded (by simp)).map
  | read length =>
    refine (Plain.guarded ?_).map
    rw [plain_state_bind]
    intro rd
    split <;> simp [now]
  | write buffer =>
    refine (Plain.guarded ?_).map
    rw [plain_state_bind]
    intro rd
    split
    · simp
    · rw [now, plain_answer_bind]
      intro startTime
      split <;> simp
  | getMetrics => exact (Plain.guarded (by simp)).map
  | getHealth => exact (Plain.guarded (by simp)).map
  | tick => exact meets_pure.mpr rfl

theorem sound (device : ReservoirDevice) (acts : List (Act Call Int)) :
    Sound service Cleared device acts := by
  refine sound_of_meets fun c _ rd => ?_
  by_cases hc : c = .reset
  · subst hc
    exact (meets_reset.mono fun _ _ _ _ h => ⟨h.1, fun _ hr => h.2 (Result.returned.inj hr)⟩).map
  · exact meets_ending hc (meets_procedure hc)

end ReservoirDevice

/-! ### Emotion -/

namespace EmotionDevice

/-- The arousal and the valence are not among the contents: they stay. -/
def Cleared (entry ed : EmotionDevice) : Prop :=
  ed.state.status = .ready ∧ (∀ name channel, ed.emotions name = some channel → channel.intensity = 0) ∧
    ed.arousal = entry.arousal ∧ ed.valence = entry.valence

variable {status : EmotionDevice → List UInt8} {entry ed : EmotionDevice}

/-- The channels so far are set to nothing, and the affect is not touched. -/
def Zeroed (entry : EmotionDevice) (done : List Emotion) (ed : EmotionDevice) : Prop :=
  (∀ name ∈ done, ∀ channel, ed.emotions name = some channel → channel.intensity = 0) ∧
    ed.arousal = entry.arousal ∧ ed.valence = entry.valence

theorem Zeroed.setChannel {done : List Emotion} (h : Zeroed entry done ed) (name : Emotion) (t : Int) :
    Zeroed entry (done ++ [name]) (ed.setChannel name ⟨name, 0, t⟩) := by
  refine ⟨fun name' hname channel hchannel => ?_, h.2⟩
  dsimp only [EmotionDevice.setChannel] at hchannel
  rw [Function.update_apply] at hchannel
  split_ifs at hchannel with heq
  · exact (Option.some.inj hchannel) ▸ rfl
  · refine h.1 name' ?_ channel hchannel
    simpa [heq] using hname

theorem mem_emotionNames (name : Emotion) : name ∈ emotionNames := by
  cases name <;> decide

theorem meets_initializeDevice : Meets (fun held entry err ed =>
    held = none ∧ (err = none → Cleared entry ed)) none entry initializeDevice ed := by
  refine Meets.guarded fun ed => ?_
  rw [meets_update_bind]
  refine Meets.bind ((Meets.each (I := Zeroed ed) (fun name done s hs => ?_) emotionNames ?_).mono ?_)
  · simp only [initializeChannel, now, meets_answer_bind, meets_update, true_and]
    exact fun t => hs.setChannel name t
  · exact ⟨by simp, rfl, rfl⟩
  · rintro _ _ _ s ⟨rfl, rfl, hzero⟩
    simp only [now, meets_answer_bind, meets_update_bind, meets_pure, true_and, forall_const]
    rintro t t' ed' steady
    rw [steady rfl]
    exact ⟨rfl, fun name => hzero.1 name (mem_emotionNames name), hzero.2⟩

theorem meets_shutdown :
    Meets (fun held _ err _ => held = none ∧ err = none) none entry shutdown ed :=
  Meets.guarded fun _ => by simp

theorem meets_reset : Meets (fun held entry err ed =>
    held = none ∧ (err = none → Cleared entry ed)) none entry reset ed := by
  refine Meets.bind (meets_shutdown.mono ?_)
  rintro _ entry _ ed ⟨rfl, rfl⟩
  exact meets_initializeDevice

theorem plain_trigger (inputLen : Nat) : (trigger inputLen).Plain := by
  rw [trigger]
  split
  · refine Plain.bind ?_ (by simp)
    rw [setEmotion, plain_state_bind]
    intro ed
    split <;> simp [now]
  · simp

theorem meets_procedure {c : Call} (hc : c ≠ .reset) :
    Meets (fun held _ _ _ => held = none) none entry ((service status).procedure c) ed := by
  cases c with
  | reset => exact absurd rfl hc
  | initializeDevice => exact (meets_initializeDevice.mono fun _ _ _ _ h => h.1).map
  | shutdown => exact (meets_shutdown.mono fun _ _ _ _ h => h.1).map
  | getState => exact (Plain.guarded (by simp [now])).map
  | setState state => exact (Plain.guarded (by simp)).map
  | read length => exact (Plain.guarded (by simp [now])).map
  | write buffer =>
    refine (Plain.guarded ?_).map
    rw [now, plain_answer_bind]
    exact fun startTime => (plain_trigger buffer.length).bind (by simp)
  | getMetrics => exact (Plain.guarded (by simp)).map
  | getHealth => exact (Plain.guarded (by simp)).map
  | tick => exact (Plain.guarded (by simp)).map

theorem sound (device : EmotionDevice) (acts : List (Act Call Int)) :
    Sound (service status) Cleared device acts := by
  refine sound_of_meets fun c _ ed => ?_
  by_cases hc : c = .reset
  · subst hc
    exact (meets_reset.mono fun _ _ _ _ h => ⟨h.1, fun _ hr => h.2 (Result.returned.inj hr)⟩).map
  · exact meets_ending hc (meets_procedure hc)

end EmotionDevice

/-! ### The three devices -/

/-- A run of a device, from when it is new. -/
inductive Run
  | memory (status : MemoryDevice → Int → List UInt8) (id : String) (config : MemoryConfig)
      (acts : List (Act Call Int))
  | reservoir (id : String) (config : ReservoirConfig) (acts : List (Act Call Int))
  | emotion (status : EmotionDevice → List UInt8) (id : String) (config : EmotionConfig)
      (acts : List (Act Call Int))

def Run.Sound : Run → Prop
  | .memory status id config acts =>
    Drivers.Sound (MemoryDevice.service status) MemoryDevice.Cleared (.new id config) acts
  | .reservoir id config acts =>
    Drivers.Sound ReservoirDevice.service ReservoirDevice.Cleared (.new id config) acts
  | .emotion status id config acts =>
    Drivers.Sound (EmotionDevice.service status) EmotionDevice.Cleared (.new id config) acts

def Act.isReset : Act Call Int → Bool
  | .call .reset => true
  | _ => false

def Run.resetsMemory : Run → Bool
  | .memory _ _ _ acts => acts.any Act.isReset
  | _ => false

/-- No device locks itself, and `Reset` clears, in every run that does not reset the memory device. -/
theorem Run.sound_unless (run : Run) (h : run.resetsMemory = false) : run.Sound := by
  cases run with
  | memory status id config acts =>
    refine MemoryDevice.sound fun c hc hreset => ?_
    subst hreset
    exact List.any_eq_false.mp h _ hc rfl
  | reservoir id config acts => exact ReservoirDevice.sound _ acts
  | emotion status id config acts => exact EmotionDevice.sound _ acts

theorem Run.sound_unless_memory :
    (Run.memory (fun _ _ => []) "memory0" {} [.call (.write [104, 105]), .run 0 0, .run 0 0]).Sound :=
  Run.sound_unless _ rfl

theorem memory_reset_locks_itself :
    ¬(Run.memory (fun _ _ => []) "memory0" {} [.call .reset, .run 0 0, .run 0 0]).Sound := by
  intro h
  have unlocked := h.unlocked _ rfl _ List.mem_cons_self
  exact Bool.false_ne_true unlocked.symm

section

variable {status : MemoryDevice → Int → List UInt8} {m m₁ m₂ m' : Machine Call MemoryDevice Int Result}

/-- After it has taken the mutex and cleared the memory it asks for the mutex again. -/
theorem memory_reset_next {entry s s' : MemoryDevice} {t : Thread Call MemoryDevice Int Result}
    {free : Mode → Bool} {answer : Int}
    (h : Thread.next ⟨.reset, none, entry, (MemoryDevice.service status).procedure .reset⟩ free s answer =
      some (s', t)) :
    ∀ free s answer s' u, t.next free s answer = some (s', u) → u.locksItself ∧ u.held = some .write := by
  change (if _ then some _ else none) = _ at h
  split_ifs at h
  cases h
  intro free s answer s' u hu
  cases hu
  exact ⟨rfl, rfl⟩

/-- A `Reset` of the memory device that has got the mutex hangs, and with it every later call. -/
theorem memory_reset_hangs {i : Nat} {entry : MemoryDevice} {answer answer' : Int}
    (ht : m.threads[i]? = some ⟨.reset, none, entry, (MemoryDevice.service status).procedure .reset⟩)
    (hlock : m.step (MemoryDevice.service status) (.run i answer) = some m₁)
    (hclear : m₁.step (MemoryDevice.service status) (.run i answer') = some m₂)
    {acts : List (Act Call Int)}
    (hrun : acts.foldlM (Machine.step (MemoryDevice.service status)) m₂ = some m') :
    (∃ t, m'.threads[i]? = some t ∧ t.locksItself) ∧ ∀ mode, m'.free mode = false := by
  have hi := (List.getElem?_eq_some_iff.mp ht).1
  obtain ⟨t, t₁, s₁, ht', hnext₁, rfl⟩ := Machine.step_run hlock
  obtain rfl := Option.some.inj (ht.symm.trans ht')
  obtain ⟨t, t₂, s₂, ht', hnext₂, rfl⟩ := Machine.step_run hclear
  rw [List.getElem?_set_self hi] at ht'
  obtain rfl := Option.some.inj ht'
  obtain ⟨hlocks, hheld⟩ := memory_reset_next hnext₁ _ _ _ _ _ hnext₂
  rw [List.set_set] at hrun
  have ht₂ : (m.threads.set i t₂)[i]? = some t₂ := List.getElem?_set_self hi
  obtain ⟨stays, taken⟩ := Machine.run_stuck ht₂ hlocks hheld hrun
  exact ⟨⟨t₂, stays, hlocks⟩, taken⟩

/-- A call that comes later does not get the mutex either. -/
theorem memory0_hangs : ∃ m' : Machine Call MemoryDevice Int Result,
    [Act.run 0 0, .run 0 0, .call .getHealth].foldlM (Machine.step (MemoryDevice.service fun _ _ => []))
      ⟨.new "memory0" {}, [⟨.reset, none, .new "memory0" {}, .returned <$> MemoryDevice.reset⟩]⟩ = some m' ∧
    (∃ t, m'.threads[0]? = some t ∧ t.locksItself) ∧ ∀ mode, m'.free mode = false := by
  have hsome : ([Act.run 0 0, .run 0 0, .call .getHealth].foldlM
    (Machine.step (MemoryDevice.service fun _ _ => []))
      ⟨.new "memory0" {}, [⟨.reset, none, .new "memory0" {}, .returned <$> MemoryDevice.reset⟩]⟩).isSome =
        true := rfl
  obtain ⟨m', hrun⟩ := Option.isSome_iff_exists.mp hsome
  refine ⟨m', hrun, ?_⟩
  rw [List.foldlM_cons, Option.bind_eq_bind, Option.bind_eq_some_iff] at hrun
  obtain ⟨m₁, hlock, hrun⟩ := hrun
  rw [List.foldlM_cons, Option.bind_eq_bind, Option.bind_eq_some_iff] at hrun
  obtain ⟨m₂, hclear, hrun⟩ := hrun
  exact memory_reset_hangs rfl hlock hclear hrun

end

end Ecco9.Drivers
